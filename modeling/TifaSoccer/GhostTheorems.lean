import TifaSoccer.LeaveTheorems
import TifaSoccer.RosterTheorems

/-!
# Ghosts on the pitch

A ghost is a player who stands in a slot and is not on the roster. Every leave of a placed
player makes one, for as long as the chain of its requests takes: the invariant is that each
ghost is covered by a link of a leave that is still in flight and will empty its slot. It holds
along runs in which no assignment puts a ghost on the pitch and no leave breaks off.
-/

namespace TifaSoccer

open Async Run

/-! ## Ghosts and what covers them -/

/-- Player `v` stands in slot `k` and is not on the roster. -/
def Ghost (db : Value) (m k v : String) : Prop :=
  (slot db m k).field "uuid" = some v ∧ v ∉ (roster db m).keys

/-- The links of a leave of `v` that will lead to slot `k` being emptied. -/
inductive Covers (m k v : String) (fl : Flight) : Prop
  /-- he has been removed from the roster -/
  | removed (hr : fl.request = .matchs (.leaveMatches m v)) (ha : fl.answer = some .ok)
  /-- the match is being read -/
  | reading (hr : fl.request = .matchs (.isUserInFootballArea m v)) (ha : fl.answer = none)
  /-- the read has found him in the slot -/
  | found (hr : fl.request = .matchs (.isUserInFootballArea m v)) {value : Value}
      (ha : fl.answer = some (.snapshot value))
      (hfound : ∀ order, ∃ p, MatchsViewModel.positionOfUser order v value = some p ∧
        p.positionForMatch = some k)
  /-- the removal is on the way -/
  | clearing (hr : fl.request = .matchs (.deletePlayerForFootballArea m k))
      (hcause : fl.cause = some (.matchs (.isUserInFootballArea m v))) (ha : fl.answer = none)

def GhostsCovered (m : String) (w : World) : Prop :=
  ∀ k v, Ghost w.server.database m k v → ∃ fl ∈ w.flights, Covers m k v fl

/-! ## The condition -/

/-- The slots of `m` that store the user. -/
def slotsOf (db : Value) (m u : String) : List String :=
  (positions db m).keys.filter fun k => decide ((slot db m k).field "uuid" = some u)

/-- The slots of a user are those that store his uuid. -/
theorem mem_slotsOf {db : Value} {m u k : String} :
    k ∈ slotsOf db m u ↔ (slot db m k).field "uuid" = some u := by
  rw [slotsOf, List.mem_filter, decide_eq_true_eq, and_iff_right_iff_imp, Json.mem_keys_iff]
  intro h hnull
  rw [slot, hnull] at h
  cases h

/-- The user whose place on the pitch a request reads the match for. -/
def Request.looksFor (m : String) : Request → Option String
  | .matchs (.isUserInFootballArea m' u) => if m' = m then some u else none
  | _ => none

/-- The slot a leave is emptying and the user who leaves. -/
def removesFor (m : String) (fl : Flight) : Option (String × String) :=
  match fl.request, fl.cause with
  | .matchs (.deletePlayerForFootballArea m' k), some (.matchs (.isUserInFootballArea _ u)) =>
    if m' = m then some (k, u) else none
  | _, _ => none

/-- The server step makes no ghost that stays. -/
structure NoGhostLeft (m : String) (w : World) (fl : Flight) (o : Outcome) : Prop where
  /-- an assignment is applied only while its player is on the roster -/
  assigned : ∀ a ∈ fl.request.assigns m, o.error = none →
    a.2.uuid.getD "" ∈ (roster w.server.database m).keys
  /-- the read of a leave finds a player who is off the roster in one slot, and does not fail
  while he is in one -/
  read : ∀ u ∈ fl.request.looksFor m, u ∉ (roster w.server.database m).keys →
    (slotsOf w.server.database m u).length ≤ 1 ∧
      (slotsOf w.server.database m u ≠ [] → o.error = none)
  /-- the removal of a leave does not fail while a player off the roster is in the slot -/
  removed : ∀ a ∈ removesFor m fl, a.2 ∉ (roster w.server.database m).keys →
    (slot w.server.database m a.1).field "uuid" = some a.2 → o.error = none

instance (m : String) (w : World) (fl : Flight) (o : Outcome) : Decidable (NoGhostLeft m w fl o) :=
  decidable_of_iff
    ((∀ a ∈ fl.request.assigns m, o.error = none →
        a.2.uuid.getD "" ∈ (roster w.server.database m).keys) ∧
      (∀ u ∈ fl.request.looksFor m, u ∉ (roster w.server.database m).keys →
        (slotsOf w.server.database m u).length ≤ 1 ∧
          (slotsOf w.server.database m u ≠ [] → o.error = none)) ∧
      ∀ a ∈ removesFor m fl, a.2 ∉ (roster w.server.database m).keys →
        (slot w.server.database m a.1).field "uuid" = some a.2 → o.error = none)
    ⟨fun ⟨h₁, h₂, h₃⟩ => ⟨h₁, h₂, h₃⟩, fun ⟨h₁, h₂, h₃⟩ => ⟨h₁, h₂, h₃⟩⟩

/-! ## The links of the chain -/

/-- A read of a match that stores the user in one slot finds him there. -/
theorem positionOfUser_of_slotsOf {db : Value} {m k v : String} (hnamed : SlotsNamed db m)
    (hv : v ≠ "") (hone : (slotsOf db m v).length ≤ 1)
    (hk : (slot db m k).field "uuid" = some v) (order : DictOrder) :
    ∃ p, MatchsViewModel.positionOfUser order v (matchNode db m) = some p ∧
      p.positionForMatch = some k := by
  rcases positionOfUser_cases hnamed hv order with ⟨-, hnobody⟩ | ⟨p, k', hp, hpos, hk'⟩
  · exact absurd hk (hnobody k)
  · -- the slot it is found in is his only one
    have hkk : k' = k := by
      have hmem' := mem_slotsOf.mpr hk'
      have hmem := mem_slotsOf.mpr hk
      generalize slotsOf db m v = l at hone hmem hmem'
      match l, hone with
      | [x], _ => rw [List.mem_singleton.mp hmem, List.mem_singleton.mp hmem']
    exact ⟨p, hp, hkk ▸ hpos⟩

/-- The completion of a link issues the next one. -/
theorem covers_of_completed {m k v : String} {w w' : World} {fl : Flight} {a : Answer}
    {orders : ℕ → DictOrder} {c : Client} {rs : List Request} (hcovers : Covers m k v fl)
    (ha : fl.answer = some a)
    (hcompleted : Completed (w.clients fl.owner) orders fl.request a c rs)
    (hissued : ∀ r ∈ rs, ⟨fl.owner, r, some fl.request, w.clients fl.owner, none⟩ ∈ w'.flights) :
    ∃ fl' ∈ w'.flights, Covers m k v fl' := by
  -- only an answered link completes: the removal from the roster, or the read
  cases hcovers with
  | removed hr ha' =>
    rw [ha] at ha'
    cases ha'
    rw [hr] at hcompleted
    cases hcompleted with
    | matchs hmatchs =>
      cases hmatchs with
      | area _ _ _ => exact ⟨_, hissued _ (List.mem_singleton_self _), .reading rfl rfl⟩
      | reload hreloads => cases hreloads
  | reading hr ha' =>
    rw [ha] at ha'
    cases ha'
  | found hr ha' hfound =>
    rw [ha] at ha'
    cases ha'
    obtain ⟨p, hp, hpos⟩ := hfound (orders 0)
    rw [hr] at hcompleted
    cases hcompleted with
    | matchs hmatchs =>
      cases hmatchs with
      | clearSlot _ _ _ hposition =>
        have hsame : some p = some _ := hp.symm.trans hposition
        cases hsame
        refine ⟨_, hissued _ (List.mem_singleton_self _), .clearing ?_ (by rw [hr]) rfl⟩
        rw [hpos]
        rfl
      | reload hreloads =>
        -- the read has shown him in a slot
        cases hreloads with
        | notPlaced _ _ _ hnone =>
          have habsurd : some p = none := hp.symm.trans hnone
          cases habsurd
  | clearing hr hcause ha' =>
    rw [ha] at ha'
    cases ha'

/-- Where a ghost after a server step comes from: it was there before, or its player has just
been removed from the roster. -/
theorem ghost_of_serve {m k v : String} {w : World} {fl : Flight} {o : Outcome}
    (hself : JoinsSelf fl) (hcond : NoGhostLeft m w fl o)
    (hghost : Ghost (fl.request.serve w.server o).1.database m k v) :
    Ghost w.server.database m k v ∨
      fl.request = .matchs (.leaveMatches m v) ∧ o.error = none := by
  obtain ⟨hstored, hoff⟩ := hghost
  cases pitchStep_serve w.server fl.request o m with
  | unchanged hroster hslot =>
    rw [hslot] at hstored
    rw [hroster] at hoff
    exact .inl ⟨hstored, hoff⟩
  | joined u user hr _ hroster hslot =>
    rw [hslot] at hstored
    exact .inl ⟨hstored, fun h => hoff (mem_roster_joined (hself m u user (.inr hr)) hroster h)⟩
  | left u hr ho hroster hslot =>
    -- somebody leaves: a new ghost if it is he, an old one otherwise
    rw [hslot] at hstored
    by_cases hu : v = u
    · exact .inr ⟨hu ▸ hr, ho⟩
    · left
      refine ⟨hstored, fun h => hoff ?_⟩
      rw [Json.mem_keys_iff] at h ⊢
      rwa [hroster, Json.child_setChild, if_neg hu]
  | assigned k' player hr ho hroster hslot =>
    rw [hslot] at hstored
    rw [hroster] at hoff
    split_ifs at hstored
    · rw [slotValue_uuid] at hstored
      cases hstored
      exact absurd (hcond.assigned (k', player) (assigns_eq_some.mpr hr) ho) hoff
    · exact .inl ⟨hstored, hoff⟩
  | cleared k' _ _ hroster hslot =>
    rw [hslot] at hstored
    rw [hroster] at hoff
    split_ifs at hstored
    · cases hstored
    · exact .inl ⟨hstored, hoff⟩
  | dropped _ _ _ hslot =>
    rw [hslot] at hstored
    cases hstored

/-- A covered ghost that survives a server step on its own link is covered by the answer. -/
theorem covers_of_served {m k v : String} {w : World} {fl : Flight} {o : Outcome} {q : Remote}
    (hcovers : Covers m k v fl) (hnone : fl.answer = none) (hof : OfLeave fl)
    (hq : fl.request.remote = .ok q) (hnamed : SlotsNamed w.server.database m)
    (hcond : NoGhostLeft m w fl o) (hghost : Ghost w.server.database m k v)
    (hafter : Ghost (fl.request.serve w.server o).1.database m k v) :
    Covers m k v { fl with answer := some (fl.request.serve w.server o).2 } := by
  cases hcovers with
  | removed hr ha =>
    rw [hnone] at ha
    cases ha
  | found hr ha hfound =>
    rw [hnone] at ha
    cases ha
  | reading hr ha =>
    have hlooks : fl.request.looksFor m = some v := by simp [hr, Request.looksFor]
    obtain ⟨hone, hok⟩ := hcond.read v hlooks hghost.2
    have ho := hok (List.ne_nil_of_mem (mem_slotsOf.mpr hghost.1))
    have hanswer : (fl.request.serve w.server o).2 =
        .snapshot (matchNode w.server.database m) := by
      rw [hr] at hq ⊢
      rcases (MatchRead.area v).answer w.server o with ha | ⟨-, hnever⟩
      · exact ha
      · exact absurd hq (hnever ho q)
    refine .found hr (by rw [hanswer]) fun order => ?_
    exact positionOfUser_of_slotsOf hnamed (hof.1 m v hr) hone hghost.1 order
  | clearing hr hcause ha =>
    -- the removal cannot fail here, and if it is applied the ghost is gone
    have hremoves : removesFor m fl = some (k, v) := by simp [removesFor, hr, hcause]
    have ho := hcond.removed (k, v) hremoves hghost.2 hghost.1
    have hw := MatchWrite.clearSlot (m := m) k
    rw [hr] at hq hafter
    obtain ⟨hm, hk, -⟩ := hw.remote_eq_ok.mp hq
    have hgone := hafter.1
    rw [slot, positions, matchNode_write hw hm hk w.server ho] at hgone
    simp at hgone

/-- The invariant: the leave of a ghost is still in flight. -/
theorem ghostsCovered_of_reaches (m : String) {server : Firebase} {sessions : ℕ → Option String}
    {w : World} (h₀ : ∀ k v, ¬ Ghost server.database m k v) (hnamed : SlotsNamed server.database m)
    (hrun : Reaches App.step (OnServe (NoGhostLeft m)) (World.start server sessions) w) :
    GhostsCovered m w := by
  refine hrun.invariant (I := GhostsCovered m) (fun k v h => absurd h (h₀ k v)) ?_
  intro w l w' hreach hI hC hstep k v hghost
  rcases server_of_step hstep with ⟨hserver, hne⟩ | ⟨n, o, fl₁, rfl, hget₁, hmem₁, hserver⟩
  · -- calls and completions: the ghost was there, its link is kept or hands over to the next
    rw [hserver] at hghost
    obtain ⟨fl, hfl, hcovers⟩ := hI k v hghost
    cases fate_of_step App.service hstep hfl with
    | kept h => exact ⟨fl, h, hcovers⟩
    | served _ _ _ => exact absurd rfl (hne _ _)
    | completed _ ha hcomplete hissued =>
      exact covers_of_completed hcovers ha
        (completed_of_complete (toOption_eq_some.mp hcomplete)).1 hissued
  · have hserver : w'.server = (fl₁.request.serve w.server o).1 := hserver
    have hfl₁ : fl₁ ∈ w.flights := List.mem_of_getElem? hget₁
    have hcond : NoGhostLeft m w fl₁ o := hC fl₁ hget₁
    rw [hserver] at hghost
    obtain ⟨q₁, hq₁⟩ := sent_of_reaches hreach fl₁ hfl₁
    rcases ghost_of_serve (joinsSelf_of_reaches hreach fl₁ hfl₁) hcond hghost with
      hold | ⟨hr, ho⟩
    · obtain ⟨fl, hfl, hcovers⟩ := hI k v hold
      cases fate_of_step App.service hstep hfl with
      | kept h => exact ⟨fl, h, hcovers⟩
      | served hget hnone h =>
        rw [hget₁] at hget
        cases hget
        exact ⟨_, h, covers_of_served hcovers hnone (ofLeave_of_reaches hreach _ hfl) hq₁
          (slotsNamed_of_reaches hnamed hreach) hcond hold hghost⟩
    · -- his own leave has just removed him from the roster
      refine ⟨_, hmem₁, .removed hr ?_⟩
      show some (fl₁.request.serve w.server o).2 = some .ok
      have hremote := hq₁
      rw [hr] at hremote
      obtain ⟨-, -, rfl⟩ := (MatchWrite.leave v).remote_eq_ok.mp hremote
      unfold Request.serve
      rw [hq₁]
      show some (w.server.serve (.setValue _ _) o).2 = _
      rw [w.server.serve_setValue _ _ ho]

/-- Along every run of any number of clients in which no assignment is applied to a player off
the roster and no leave breaks off, whenever no request is in flight every player on the pitch
of `m` is on its roster. -/
theorem no_ghost_on_pitch (m : String) {server : Firebase} {sessions : ℕ → Option String}
    {w : World} (h₀ : ∀ k v, ¬ Ghost server.database m k v) (hnamed : SlotsNamed server.database m)
    (hrun : Reaches App.step (OnServe (NoGhostLeft m)) (World.start server sessions) w)
    (hquiet : w.flights = []) (k v : String)
    (hstored : (slot w.server.database m k).field "uuid" = some v) :
    v ∈ (roster w.server.database m).keys := by
  by_contra hoff
  obtain ⟨fl, hfl, -⟩ := ghostsCovered_of_reaches m h₀ hnamed hrun k v ⟨hstored, hoff⟩
  rw [hquiet] at hfl
  cases hfl

/-- An admin puts `n` on the pitch; every request is answered. -/
def placed : List Label :=
  [.call 1 (.setPlayerPositionWithMatch "m" "A0" (samplePlayer "n"))] ++ roundTrip 0 {} ++
    roundTrip 0 {}

/-- `o` is put on the pitch too, then `n` leaves and the chain runs to its end. -/
def leaveFinished : List Label :=
  placed ++ [.call 1 (.setPlayerPositionWithMatch "m" "B0" (samplePlayer "o"))] ++
    roundTrip 0 {} ++ roundTrip 0 {} ++ [.call 0 (.leaveMatches "m")] ++ roundTrip 0 {} ++
    roundTrip 0 {} ++ roundTrip 0 {} ++ roundTrip 0 {}

/-- A leave that runs to its end, with an assignment of somebody else. -/
theorem no_ghost_on_pitch_after_leave :
    ∃ w, exec (restrict App.step (OnServe (NoGhostLeft "m")))
        (World.start (sampleMatch ["n", "o"]) leaverAndAdmin) leaveFinished = some w ∧
      w.flights.isEmpty = true ∧ "o" ∈ (roster w.server.database "m").keys := by
  obtain ⟨w, hw, hend⟩ := Option.map_eq_some_iff.mp (show (exec (restrict App.step
    (OnServe (NoGhostLeft "m"))) (World.start (sampleMatch ["n", "o"]) leaverAndAdmin)
    leaveFinished).map
    (fun w => (w.flights.isEmpty, (slot w.server.database "m" "B0").field "uuid")) =
    some (true, some "o") from by decide +kernel)
  obtain ⟨hquiet, hslot⟩ := Prod.mk.inj hend
  have hempty := slot_sampleMatch ["n", "o"]
  have h₀ : ∀ k v, ¬ Ghost (sampleMatch ["n", "o"]).database "m" k v := by
    intro k v h
    have hstored := h.1
    rw [hempty] at hstored
    cases hstored
  exact ⟨w, hw, hquiet, no_ghost_on_pitch "m" h₀ (fun k hk => absurd (hempty k) hk)
    (reaches_of_exec hw) (List.isEmpty_iff.mp hquiet) "B0" "o" hslot⟩

/-- `n` leaves and the read of the match fails. -/
def leaveUnread : List Label :=
  placed ++ [.call 0 (.leaveMatches "m")] ++ roundTrip 0 {} ++
    roundTrip 0 { error := some "offline" }

/-- Nobody takes `n` off the pitch. -/
theorem failed_read_leaves_ghost :
    ∃ w, exec App.step (World.start (sampleMatch ["n", "o"]) leaverAndAdmin) leaveUnread = some w ∧
      w.flights.isEmpty = true ∧ Ghost w.server.database "m" "A0" "n" := by
  obtain ⟨w, hw, hend⟩ := Option.map_eq_some_iff.mp (show (exec App.step
    (World.start (sampleMatch ["n", "o"]) leaverAndAdmin) leaveUnread).map
    (fun w => (w.flights.isEmpty, (slot w.server.database "m" "A0").field "uuid",
      decide ("n" ∈ (roster w.server.database "m").keys))) =
    some (true, some "n", false) from by decide +kernel)
  simp only [Prod.mk.injEq] at hend
  obtain ⟨hquiet, hslot, hoff⟩ := hend
  exact ⟨w, hw, hquiet, hslot, of_decide_eq_false hoff⟩

end TifaSoccer
