import TifaSoccer.SlotTheorems

/-!
# Leaving a match

A leave is a chain of requests: remove the player from the roster, read the match, empty the
slot that read has found. Each link is issued by the completion of the one before, and other
clients act in between.
-/

namespace TifaSoccer

open Async Run

/-! ## The read of a leave -/

/-- What the read of a leave can find in a match with named slots: the user in one of his slots,
or nobody because he is in none. -/
theorem positionOfUser_cases {db : Value} {m u : String} (h : SlotsNamed db m) (hu : u ≠ "")
    (order : DictOrder) :
    (MatchsViewModel.positionOfUser order u (matchNode db m) = none ∧
      ∀ k, (slot db m k).field "uuid" ≠ some u) ∨
    ∃ p k, MatchsViewModel.positionOfUser order u (matchNode db m) = some p ∧
      p.positionForMatch = some k ∧ (slot db m k).field "uuid" = some u := by
  cases hp : MatchsViewModel.positionOfUser order u (matchNode db m) with
  | none =>
    refine .inl ⟨rfl, fun k hk => ?_⟩
    have hne : slot db m k ≠ .null := by
      intro hnull
      rw [hnull] at hk
      cases hk
    obtain ⟨d, hd, hall⟩ := mem_Position_of_slot h hne
    obtain ⟨p, hmem, -, huuid⟩ := hall order
    rw [hk, Option.getD_some] at huuid
    simp only [MatchsViewModel.positionOfUser, hd, Option.bind_eq_bind, Option.bind_some] at hp
    -- the loop has passed by the position of the user
    have hother := List.find?_eq_none.mp (show ((MatchsModel.init order d).Position.getD []).find?
      (fun position => decide (position.uuid = some u)) = none from hp) p hmem
    simp [huuid] at hother
  | some p =>
    simp only [MatchsViewModel.positionOfUser, Option.bind_eq_bind, Option.bind_eq_some_iff] at hp
    obtain ⟨d, hd, _, ⟨⟩, hfind⟩ := hp
    have hmem : p ∈ (MatchsModel.init order d).Position.getD [] := List.mem_of_find?_eq_some hfind
    have huuid : p.uuid = some u := by simpa using List.find?_some hfind
    obtain ⟨k, hk, -, huuid'⟩ := slot_of_mem_Position h hd hmem
    rw [huuid, Option.some.injEq] at huuid'
    exact .inr ⟨p, k, rfl, hk, eq_some_of_getD huuid'.symm hu⟩

/-! ## The chain of a leave -/

/-- Who a link of a leave chain belongs to: a read of the match is for a user with a non-empty
uid, and a removal comes from such a read. -/
def OfLeave (fl : Flight) : Prop :=
  (∀ m u, fl.request = .matchs (.isUserInFootballArea m u) → u ≠ "") ∧
    ∀ m k, fl.request = .matchs (.deletePlayerForFootballArea m k) →
      ∃ u, u ≠ "" ∧ fl.cause = some (.matchs (.isUserInFootballArea m u))

/-- Every request of a leave in flight follows from the one before it. -/
theorem ofLeave_of_reaches {C : World → Label → Prop} {server : Firebase}
    {sessions : ℕ → Option String} {w : World}
    (hrun : Reaches App.step C (World.start server sessions) w) :
    ∀ fl ∈ w.flights, OfLeave fl := by
  refine flight_invariant (P := App.service) hrun rfl ?_ ?_ ?_
  · -- no call issues a later link of the chain
    intro w i op c rs r _ _ hcall hr
    have hissues := (issues_of_call (toOption_eq_some.mp hcall) hr).1
    constructor
    · intro m u heq
      simp only at heq
      subst heq
      cases hissues
    · intro m k heq
      simp only at heq
      subst heq
      cases hissues
  · intro w n o fl _ _ _ _ hJ
    exact hJ
  · intro w n d fl a c rs r hreach _ hget hJ _ hcomplete hr
    have hissues := (issues_of_complete (toOption_eq_some.mp hcomplete) hr).1
    constructor
    · -- the read is issued by the removal from the roster, which was sent with this uid
      intro m u heq
      simp only at heq
      subst heq
      obtain ⟨q, hq⟩ := sent_of_reaches hreach fl (List.mem_of_getElem? hget)
      generalize hreq : fl.request = r₀ at hissues hq
      cases hissues
      obtain ⟨-, hpath, -⟩ := (MatchWrite.leave u).remote_eq_ok.mp hq
      intro hu
      exact hpath (by simp [hu])
    · intro m k heq
      simp only at heq
      subst heq
      generalize hreq : fl.request = r₀ at hissues
      cases hissues with
      | clearSlot _ u _ _ => exact ⟨u, hJ.1 m u hreq, rfl⟩

/-! ## Whose slot a leave empties -/

/-- The match shows the user in the slot. -/
def placesAt (u k : String) (v : Value) : Prop :=
  ∃ d ∈ v.asDictionary, ∃ p ∈ (MatchsModel.init .byKey d).Position.getD [],
    p.uuid = some u ∧ p.positionForMatch.getD "" = k

instance (u k : String) (v : Value) : Decidable (placesAt u k v) :=
  inferInstanceAs (Decidable (∃ d ∈ v.asDictionary, _))

/-- What the loop of `isUserInFootballArea` finds is a place of the user, in whatever order the
positions are decoded. -/
theorem placesAt_of_positionOfUser {order : DictOrder} {u : String} {v : Value}
    {p : UserPositionModel} (h : MatchsViewModel.positionOfUser order u v = some p) :
    placesAt u (p.positionForMatch.getD "") v := by
  simp only [MatchsViewModel.positionOfUser, Option.bind_eq_bind, Option.bind_eq_some_iff] at h
  obtain ⟨d, hd, positions, hpositions, hfind⟩ := h
  cases hpositions
  have huuid : p.uuid = some u := by simpa using List.find?_some hfind
  obtain ⟨e, he, rfl⟩ := List.mem_map.mp (List.mem_of_find?_eq_some hfind)
  refine ⟨d, hd, UserPositionModel.init e.2, ?_, huuid, rfl⟩
  have hperm := (order.perm "Positions" (d.nested "Positions")).mem_iff.mp he
  exact List.mem_map.mpr ⟨e, hperm, rfl⟩

/-- The user whose leave is about to empty slot `k` of `m`: its read has been answered and
shows him there, or its removal is on the way. -/
def leaverAt (m k : String) (fl : Flight) : Option String :=
  match fl.request, fl.cause, fl.answer with
  | .matchs (.isUserInFootballArea m' u), _, some a =>
    if m' = m ∧ placesAt u k a.value then some u else none
  | .matchs (.deletePlayerForFootballArea m' k'), some (.matchs (.isUserInFootballArea _ u)),
      none =>
    if m' = m ∧ k' = k then some u else none
  | _, _, _ => none

/-- The two links of a leave that will empty a slot. -/
theorem leaverAt_eq_some {m k u : String} {fl : Flight} :
    leaverAt m k fl = some u ↔
      (fl.request = .matchs (.isUserInFootballArea m u) ∧
        ∃ a, fl.answer = some a ∧ placesAt u k a.value) ∨
      (fl.request = .matchs (.deletePlayerForFootballArea m k) ∧
        (∃ m', fl.cause = some (.matchs (.isUserInFootballArea m' u))) ∧ fl.answer = none) := by
  unfold leaverAt
  constructor
  · intro h
    split at h
    · rename_i m' u' _ a hreq ha
      split_ifs at h with hcond
      cases h
      exact .inl ⟨hcond.1 ▸ hreq, a, ha, hcond.2⟩
    · rename_i m' k' m'' u' hreq hcause hnone
      split_ifs at h with hcond
      cases h
      exact .inr ⟨hcond.1 ▸ hcond.2 ▸ hreq, ⟨m'', hcause⟩, hnone⟩
    · cases h
  · rintro (⟨hreq, a, ha, hplaces⟩ | ⟨hreq, ⟨m', hcause⟩, hnone⟩)
    · simp [hreq, ha, hplaces]
    · simp [hreq, hcause, hnone]

/-- An assignment is applied only to a slot that no other user's leave is about to empty. -/
def NoLeaverAt (m : String) (w : World) (fl : Flight) (o : Outcome) : Prop :=
  ∀ a ∈ fl.request.assigns m, o.error = none →
    ∀ fl' ∈ w.flights, ∀ u ∈ leaverAt m a.1 fl', u = a.2.uuid.getD ""

instance (m : String) (w : World) (fl : Flight) (o : Outcome) : Decidable (NoLeaverAt m w fl o) :=
  inferInstanceAs (Decidable (∀ a ∈ fl.request.assigns m, _))

/-- The slot is free or the user's. -/
def FreeOrOf (u : String) (v : Value) : Prop :=
  v = .null ∨ v.field "uuid" = some u

/-- The slots that leaves are about to empty are free or the leaver's. -/
def LeaversOwn (m : String) (w : World) : Prop :=
  ∀ fl ∈ w.flights, ∀ k, ∀ u ∈ leaverAt m k fl, FreeOrOf u (slot w.server.database m k)

/-- A server step keeps a slot free or the leaver's. -/
theorem freeOrOf_serve {m : String} {w : World} {fl fl' : Flight} {o : Outcome}
    (hcond : NoLeaverAt m w fl o) (hfl' : fl' ∈ w.flights) {k u : String}
    (hu : u ∈ leaverAt m k fl') (h : FreeOrOf u (slot w.server.database m k)) :
    FreeOrOf u (slot (fl.request.serve w.server o).1.database m k) := by
  rcases slot_serve w.server fl.request o m k with hslot | ⟨player, hr, ho, hslot⟩ | ⟨-, -, hslot⟩
  · rw [hslot]
    exact h
  · right
    rw [hslot, slotValue_uuid, hcond (k, player) (assigns_eq_some.mpr hr) ho fl' hfl' u hu]
  · exact .inl hslot

/-- The answer to the read of a match with named slots shows users where they are. -/
theorem freeOrOf_of_read (s : Firebase) {m u k : String} {o : Outcome} (hu : u ≠ "")
    (hnamed : SlotsNamed s.database m)
    (h : placesAt u k ((Request.matchs (.isUserInFootballArea m u)).serve s o).2.value) :
    FreeOrOf u (slot s.database m k) := by
  obtain ⟨d, hd, p, hp, huuid, hk⟩ := h
  rcases (MatchRead.area u).answer s o with ha | ⟨⟨e, ha⟩, -⟩
  · rw [ha] at hd
    obtain ⟨k', hpos, -, huuid'⟩ := slot_of_mem_Position hnamed hd hp
    rw [hpos, Option.getD_some] at hk
    subst hk
    rw [huuid, Option.some.injEq] at huuid'
    exact .inr (eq_some_of_getD huuid'.symm hu)
  · rw [ha] at hd
    cases hd

/-- The invariant: a slot that a leave is about to empty is free or stores the leaver. -/
theorem leaversOwn_of_reaches (m : String) {server : Firebase} {sessions : ℕ → Option String}
    {w : World} (h₀ : SlotsNamed server.database m)
    (hrun : Reaches App.step (OnServe (NoLeaverAt m)) (World.start server sessions) w) :
    LeaversOwn m w := by
  refine hrun.invariant (I := LeaversOwn m) (by intro fl hfl; cases hfl) ?_
  intro w l w' hreach hI hC hstep fl hfl k u hu
  -- a leaver in flight after the step was one before, has just read the match, or goes on to
  -- the removal
  cases origin_of_step App.service hstep hfl with
  | kept hmem =>
    rcases server_of_step hstep with ⟨hserver, -⟩ | ⟨n, o, fl₁, rfl, hget, -, hserver⟩
    · rw [hserver]
      exact hI fl hmem k u hu
    · rw [hserver]
      exact freeOrOf_serve (hC fl₁ hget) hmem hu (hI fl hmem k u hu)
  | called hcall hr =>
    -- a request just called is not yet answered and has no cause
    simp [leaverAt] at hu
  | @served n o fl₀ hget hnone =>
    rcases leaverAt_eq_some.mp hu with ⟨hreq, a, ha, hplaces⟩ | ⟨-, -, hanswer⟩
    · -- the read has just been answered; it changes nothing
      have hreq : fl₀.request = .matchs (.isUserInFootballArea m u) := hreq
      have ha : some (fl₀.request.serve w.server o).2 = some a := ha
      rw [Option.some.injEq] at ha
      have hne := (ofLeave_of_reaches hreach fl₀ (List.mem_of_getElem? hget)).1 m u hreq
      rw [← ha, hreq] at hplaces
      have hnamed : SlotsNamed w.server.database m := slotsNamed_of_reaches h₀ hreach
      have hread := freeOrOf_of_read w.server hne hnamed hplaces
      rw [server_of_serve hstep hget]
      show FreeOrOf u (slot (fl₀.request.serve w.server o).1.database m k)
      rcases slot_serve w.server fl₀.request o m k with h | ⟨player, hr, -, -⟩ | ⟨hvacates, -, -⟩
      · rw [h]
        exact hread
      · rw [hreq] at hr
        cases hr
      · rw [hreq] at hvacates
        cases hvacates
    · cases hanswer
  | @completed n d fl₀ a c rs r hget ha hcomplete hr =>
    rcases leaverAt_eq_some.mp hu with ⟨-, a, ha, -⟩ | ⟨hreq, ⟨m', hcause⟩, -⟩
    · cases ha
    · -- the removal empties the slot the answered read has shown
      have hreq : r = .matchs (.deletePlayerForFootballArea m k) := hreq
      have hissues := (issues_of_complete (toOption_eq_some.mp hcomplete) hr).1
      rw [hreq, Option.some.inj hcause] at hissues
      rw [server_of_deliver hstep]
      have hreq₀ := Option.some.inj hcause
      cases hissues with
      | clearSlot _ _ _ hposition =>
        exact hI fl₀ (List.mem_of_getElem? hget) _ u (leaverAt_eq_some.mpr
          (.inl ⟨hreq₀, a, ha, placesAt_of_positionOfUser hposition⟩))

/-- Along every run in which no assignment is applied to a slot that another user's leave is
about to empty, the removal of a leave, whenever it is applied, finds the slot free or finds
the leaver himself in it. -/
theorem leave_removes_own (m : String) {server : Firebase} {sessions : ℕ → Option String}
    {w : World} (h₀ : SlotsNamed server.database m)
    (hrun : Reaches App.step (OnServe (NoLeaverAt m)) (World.start server sessions) w)
    {fl : Flight} (hfl : fl ∈ w.flights) {k : String}
    (hr : fl.request = .matchs (.deletePlayerForFootballArea m k)) (hnone : fl.answer = none) :
    ∃ u, fl.cause = some (.matchs (.isUserInFootballArea m u)) ∧
      FreeOrOf u (slot w.server.database m k) := by
  obtain ⟨u, -, hcause⟩ := (ofLeave_of_reaches hrun fl hfl).2 m k hr
  exact ⟨u, hcause, leaversOwn_of_reaches m h₀ hrun fl hfl k u
    (leaverAt_eq_some.mpr (.inr ⟨hr, ⟨m, hcause⟩, hnone⟩))⟩

/-- Client 0 belongs to `n`, the others to an admin `a`. -/
def leaverAndAdmin (i : ℕ) : Option String := some (if i = 0 then "n" else "a")

/-- `n`, who stands in `A0`, leaves; the removal is on the way. -/
def leaveAlone : List Label :=
  [.call 1 (.setPlayerPositionWithMatch "m" "A0" (samplePlayer "n")), .serve 0 {},
    .call 0 (.leaveMatches "m")] ++ roundTrip 1 {} ++ roundTrip 1 {}

/-- A leave whose removal is on the way. -/
theorem leave_removes_own_alone :
    ∃ w fl, exec (restrict App.step (OnServe (NoLeaverAt "m")))
        (World.start (sampleMatch ["n"]) leaverAndAdmin) leaveAlone = some w ∧
      w.flights[1]? = some fl ∧
      ∃ u, fl.cause = some (.matchs (.isUserInFootballArea "m" u)) ∧
        FreeOrOf u (slot w.server.database "m" "A0") := by
  obtain ⟨w, hw, hflight⟩ := Option.map_eq_some_iff.mp (show (exec (restrict App.step
    (OnServe (NoLeaverAt "m"))) (World.start (sampleMatch ["n"]) leaverAndAdmin) leaveAlone).map
    (fun w => (w.flights[1]?).map fun fl => (fl.request, fl.answer.isNone)) =
    some (some (.matchs (.deletePlayerForFootballArea "m" "A0"), true)) from by decide +kernel)
  obtain ⟨fl, hget, heq⟩ := Option.map_eq_some_iff.mp hflight
  obtain ⟨hr, hnone⟩ := Prod.mk.inj heq
  have hnamed : SlotsNamed (sampleMatch ["n"]).database "m" :=
    fun k hk => absurd (slot_sampleMatch ["n"] k) hk
  exact ⟨w, fl, hw, hget, leave_removes_own "m" hnamed (reaches_of_exec hw)
    (List.mem_of_getElem? hget) hr (Option.isNone_iff_eq_none.mp hnone)⟩

/-- `n` leaves; after the read has found him in `A0` an admin takes him off the pitch and
assigns `o` to the slot. -/
def leaveOvertaken : List Label :=
  [.call 1 (.setPlayerPositionWithMatch "m" "A0" (samplePlayer "n")), .serve 0 {},
    .call 0 (.leaveMatches "m")] ++ roundTrip 1 {} ++
    [.serve 1 {}, .call 1 (.deletePlayerPositionWithMatch "m" "A0"), .serve 2 {},
      .call 1 (.setPlayerPositionWithMatch "m" "A0" (samplePlayer "o")), .serve 3 {},
      .deliver 1 fun _ => .byKey]

/-- The removal of the leave of `n` takes `o` off the pitch. -/
theorem leave_removes_another :
    ∃ w fl w', exec App.step (World.start (sampleMatch ["n", "o"]) leaverAndAdmin) leaveOvertaken =
        some w ∧
      w.flights[3]? = some fl ∧ fl.request = .matchs (.deletePlayerForFootballArea "m" "A0") ∧
      fl.cause = some (.matchs (.isUserInFootballArea "m" "n")) ∧
      (slot w.server.database "m" "A0").field "uuid" = some "o" ∧
      App.step w (.serve 3 {}) = some w' ∧ (slot w'.server.database "m" "A0").isNull = true := by
  obtain ⟨w, hw, hrest⟩ := Option.map_eq_some_iff.mp (show (exec App.step
    (World.start (sampleMatch ["n", "o"]) leaverAndAdmin) leaveOvertaken).map
    (fun w => ((w.flights[3]?).map fun fl => (fl.request, fl.cause),
      (slot w.server.database "m" "A0").field "uuid",
      (App.step w (.serve 3 {})).map fun w' => (slot w'.server.database "m" "A0").isNull)) =
    some (some (.matchs (.deletePlayerForFootballArea "m" "A0"),
      some (.matchs (.isUserInFootballArea "m" "n"))), some "o", some true)
    from by decide +kernel)
  simp only [Prod.mk.injEq, Option.map_eq_some_iff] at hrest
  obtain ⟨⟨fl, hget, hr, hcause⟩, hslot, w', hstep, hempty⟩ := hrest
  exact ⟨w, fl, w', hw, hget, hr, hcause, hslot, hstep, hempty⟩

end TifaSoccer
