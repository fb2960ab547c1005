import TifaSoccer.CacheTheorems
import TifaSoccer.Lib.Pending

/-!
# The loading overlays

`isLoad` is set when an operation starts and cleared by hand at the exits of its completions.
The overlay of the matches gets stuck at the exits that forget it (`overlay_never_stuck`), and
is taken away too early by the completions that start a refresh before they clear it
(`overlay_covers_requests`). The overlay of the account does neither
(`account_overlay_never_stuck`).
-/

namespace TifaSoccer

open Async Run

/-! ## The requests of a view model -/

def Request.isMatchs : Request → Bool
  | .matchs _ => true
  | _ => false

def Request.isBase : Request → Bool
  | .base _ => true
  | _ => false

/-- The requests of `BaseViewModel` are all counted. -/
theorem countP_isBase_map (rs : List BaseViewModel.Request) :
    (rs.map Request.base).countP Request.isBase = rs.length := by
  rw [List.countP_eq_length.mpr]
  · exact List.length_map _
  · intro r hr
    obtain ⟨_, -, rfl⟩ := List.mem_map.mp hr
    rfl

/-! ## The overlay of the matches -/

/-- The functions of `MatchsViewModel`. -/
def Op.ofMatchs : Op → Bool
  | .getAllMatchs => true
  | .joinMatches _ _ => true
  | .leaveMatches _ => true
  | .deleteMatches _ => true
  | .openDetail _ => true
  | .getMatchWithMatchID _ => true
  | .setPlayerPositionWithMatch _ _ _ => true
  | .deletePlayerPositionWithMatch _ _ => true
  | .setIsPlanningCompleteForMatch _ => true
  | .addComment _ _ _ _ => true
  | _ => false

/-- The completions that leave the overlay as it is and send nothing: the loop over an empty
list of matches, and the branch of a full roster. -/
def Request.strands (a : Answer) : Request → Bool
  | .matchs .getAllMatchs => a.succeeded && a.value.entries.isEmpty
  | .matchs (.joinMatchesRead _ _ _) => a.succeeded && decide (a.value.childrenCount = 14)
  | _ => false

/-- The completions that take the overlay away after they have started a refresh. -/
def Request.unloadsEarly (a : Answer) : Request → Bool
  | .matchs (.setPlayerPositionWithMatch _ _ _) => a.succeeded
  | .matchs (.deletePlayerPositionWithMatch _ _) => a.succeeded
  | _ => false

/-- What a call does to the overlay. -/
inductive CallOverlay (c : Client) (op : Op) (c' : Client) (rs : List Request) : Prop
  | sent (hop : op.ofMatchs = true) (hone : rs.countP Request.isMatchs = 1)
      (hload : c'.matchs.isLoad = true)
  | kept (hnone : rs.countP Request.isMatchs = 0) (hload : c'.matchs.isLoad = c.matchs.isLoad)
  | stranded (hop : op.ofMatchs = true) (hstrands : c.strands op = true)
      (hnone : rs.countP Request.isMatchs = 0) (hload : c'.matchs.isLoad = true)

/-- Every call does to the overlays what `CallOverlay` says. -/
theorem callOverlay_of_call {c c' : Client} {op : Op} {rs : List Request}
    (h : c.call op = .ok (c', rs)) : CallOverlay c op c' rs := by
  cases (called_of_call h).1 with
  | getAllMatchs => exact .sent rfl rfl rfl
  | sendMatchs hissues _ _ => exact .sent (by cases hissues <;> rfl) rfl rfl
  | strandMatchs hstrands =>
    have hop : op.ofMatchs = true := by cases op <;> first | rfl | cases hstrands
    exact .stranded hop hstrands rfl rfl
  | _ => exact .kept rfl rfl

/-- The loop over the children of a snapshot clears the flag in its body. -/
theorem isLoad_appendChildren (self : MatchsViewModel) (orders : ℕ → DictOrder)
    (children : Dictionary) :
    (self.appendChildren orders children).isLoad = (children.isEmpty && self.isLoad) := by
  have hloop : ∀ (cs : List ((String × Node) × ℕ)) (self : MatchsViewModel),
      (cs.foldl (fun self c => MatchsViewModel.appendChild (orders c.2) self c.1.2) self).isLoad =
        (cs.isEmpty && self.isLoad) := by
    intro cs
    induction cs with
    | nil => exact fun self => rfl
    | cons c cs ih =>
      intro self
      have hturn : (MatchsViewModel.appendChild (orders c.2) self c.1.2).isLoad = false := by
        unfold MatchsViewModel.appendChild
        split <;> rfl
      rw [List.foldl_cons, ih, hturn]
      simp
  rw [MatchsViewModel.appendChildren, hloop]
  cases children <;> rfl

/-- What a completion does to the overlay. -/
inductive CompletionOverlay (c : Client) (r : Request) (a : Answer) (c' : Client)
    (rs : List Request) : Prop
  | kept (hr : r.isMatchs = false) (hnone : rs.countP Request.isMatchs = 0)
      (hload : c'.matchs.isLoad = c.matchs.isLoad)
  | sent (hr : r.isMatchs = true) (hone : rs.countP Request.isMatchs = 1)
      (hload : r.unloadsEarly a = false → c.matchs.isLoad = true → c'.matchs.isLoad = true)
  | done (hr : r.isMatchs = true) (hnone : rs.countP Request.isMatchs = 0)
      (hload : c'.matchs.isLoad = false)
  | stranded (hr : r.isMatchs = true) (hnone : rs.countP Request.isMatchs = 0)
      (hstrands : r.strands a = true) (hload : c'.matchs.isLoad = c.matchs.isLoad)

/-- Every completion of `MatchsViewModel` does to its overlay what `CompletionOverlay` says. -/
theorem MatchsCompleted.overlay {c : Client} {vm : MatchsViewModel} {orders : ℕ → DictOrder}
    {r : MatchsViewModel.Request} {a : Answer} {rs : List MatchsViewModel.Request}
    (h : MatchsCompleted c.matchs orders r a vm rs) :
    CompletionOverlay c (.matchs r) a { c with matchs := vm } (rs.map .matchs) := by
  cases h with
  | listed a =>
    cases hsucceeded : a.succeeded with
    | false =>
      obtain ⟨e, rfl⟩ := not_succeeded_iff.mp hsucceeded
      exact .done rfl rfl rfl
    | true =>
      rw [getAllMatchsCompletion_of_succeeded c.matchs orders hsucceeded]
      have hloop := isLoad_appendChildren c.matchs orders a.value.entries
      -- with children the loop clears the flag, without it does not run
      cases hempty : a.value.entries.isEmpty with
      | false =>
        rw [hempty, Bool.false_and] at hloop
        exact .done rfl rfl hloop
      | true =>
        rw [hempty, Bool.true_and] at hloop
        exact .stranded rfl rfl (by simp [Request.strands, hsucceeded, hempty]) hloop
  | selected m a =>
    refine .done rfl rfl ?_
    show (c.matchs.getMatchWithMatchIDCompletion (orders 0) a).isLoad = false
    unfold MatchsViewModel.getMatchWithMatchIDCompletion
    split
    · rfl
    · split <;> rfl
  | failed e _ => exact .done rfl rfl rfl
  | full m u user ha hcount =>
    refine .stranded rfl rfl ?_ rfl
    simp [Request.strands, succeeded_iff.mpr ha, hcount]
  | joinWrite m u user ha hcount => exact .sent rfl rfl fun _ hload => hload
  | reselectSet m k player ha =>
    refine .sent rfl rfl fun hearly _ => ?_
    simp [Request.unloadsEarly, succeeded_iff.mpr ha] at hearly
  | reselectDelete m k ha =>
    refine .sent rfl rfl fun hearly _ => ?_
    simp [Request.unloadsEarly, succeeded_iff.mpr ha] at hearly
  | _ => exact .sent rfl rfl fun _ _ => rfl

/-- Every completion does to the overlays what `CompletionOverlay` says. -/
theorem completionOverlay_of_complete {c c' : Client} {orders : ℕ → DictOrder} {r : Request}
    {a : Answer} {rs : List Request} (h : c.complete orders r a = .ok (c', rs)) :
    CompletionOverlay c r a c' rs := by
  cases (completed_of_complete h).1 with
  | @base r a vm rs hbase =>
    have hother : (rs.map Request.base).countP Request.isMatchs = 0 := by
      simp [List.countP_eq_zero, Request.isMatchs]
    refine .kept rfl hother ?_
    rcases authenticated_spec c r a with hauth | ⟨-, uid, -, hauth⟩ <;> rw [hauth]
  | matchs hmatchs => exact hmatchs.overlay
  | _ => exact .kept rfl rfl rfl

/-! ## The overlay gets stuck -/

/-- A call that sends nothing shows the overlay only while another request is in flight. -/
def StrandsCovered (w : World) (i : ℕ) (op : Op) : Prop :=
  (w.clients i).strands op = true → w.pending Request.isMatchs i ≠ 0

/-- An exit that leaves the overlay as it is runs only while another request is in flight, or
after the overlay has been taken away. -/
def ExitsCovered (w : World) (fl : Flight) : Prop :=
  ∀ a ∈ fl.answer, fl.request.strands a = true →
    w.pending Request.isMatchs fl.owner ≠ 1 ∨ (w.clients fl.owner).matchs.isLoad = false

instance (w : World) (i : ℕ) (op : Op) : Decidable (StrandsCovered w i op) :=
  inferInstanceAs (Decidable (_ → _))

instance (w : World) (fl : Flight) : Decidable (ExitsCovered w fl) :=
  inferInstanceAs (Decidable (∀ a ∈ fl.answer, _))

/-- Along every run in which the exits that forget the overlay are taken only while something
else will clear it, it is gone whenever no request of the view model is in flight. -/
theorem overlay_never_stuck {server : Firebase} {sessions : ℕ → Option String} {w : World}
    (hrun : Reaches App.step
      (fun w l => OnCall StrandsCovered w l ∧ OnDeliver ExitsCovered w l)
      (World.start server sessions) w) (i : ℕ) (hquiet : w.pending Request.isMatchs i = 0) :
    (w.clients i).matchs.isLoad = false := by
  revert hquiet
  refine pending_invariant (P := App.service) Request.isMatchs
    (Q := fun c k => k = 0 → c.matchs.isLoad = false) hrun (fun i _ => rfl) ?_ ?_ i
  · intro w i op c rs _ hQ hC hcall hquiet
    cases callOverlay_of_call (toOption_eq_some.mp hcall) with
    | sent _ hone _ => omega
    | kept hnone hload =>
      rw [hload]
      exact hQ (by omega)
    | stranded _ hstrands hnone _ => exact absurd (by omega) (hC.1 hstrands)
  · intro w n d fl a c rs k _ hQ hpending hC hget ha hcomplete hquiet
    cases completionOverlay_of_complete (toOption_eq_some.mp hcomplete) with
    | kept hr hnone hload =>
      rw [hload]
      refine hQ ?_
      simp only [List.countP_singleton, hr, Bool.false_eq_true, if_false]
      omega
    | sent _ hone _ => omega
    | done _ _ hload => exact hload
    | stranded hr hnone hstrands hload =>
      -- the answer was the last one in flight
      have hlast : w.pending Request.isMatchs fl.owner = 1 := by
        rw [hpending, List.countP_singleton, hr, if_pos rfl]
        omega
      rw [hload]
      exact (hC.2 fl hget a ha hstrands).resolve_left (absurd hlast)

/-- Refreshes of a list with a match in it, one of them failing. -/
def refreshed : List Label :=
  [.call 0 .getAllMatchs] ++ roundTrip 0 {} ++ [.call 0 .getAllMatchs] ++
    roundTrip 0 { error := some "offline" }

/-- Two refreshes, after which nothing is in flight. -/
theorem overlay_never_stuck_refreshed :
    ∃ w, exec (restrict App.step
        (fun w l => OnCall StrandsCovered w l ∧ OnDeliver ExitsCovered w l))
        (World.start (sampleMatch ["n"]) fun _ => some "n") refreshed = some w ∧
      w.pending Request.isMatchs 0 = 0 ∧ (w.clients 0).matchs.isLoad = false := by
  obtain ⟨w, hw, hquiet⟩ := Option.map_eq_some_iff.mp (show (exec (restrict App.step
    (fun w l => OnCall StrandsCovered w l ∧ OnDeliver ExitsCovered w l))
    (World.start (sampleMatch ["n"]) fun _ => some "n") refreshed).map
    (fun w => w.pending Request.isMatchs 0) = some 0 from by decide +kernel)
  exact ⟨w, hw, hquiet, overlay_never_stuck (reaches_of_exec hw) 0 hquiet⟩

/-- The refresh of an empty list is answered and the overlay stays. -/
theorem empty_list_strands_overlay :
    (exec (restrict App.step (OnCall fun w i op => (w.clients i).Offers op))
      (World.start ⟨.null, []⟩ fun _ => none) ([.call 0 .getAllMatchs] ++ roundTrip 0 {})).map
      (fun w => (w.flights.isEmpty, (w.clients 0).matchs.isLoad)) = some (true, true) := by
  decide +kernel

/-! ## The overlay goes too early -/

/-- The user starts an operation only when no request is in flight. -/
def OneAtATime (w : World) (i : ℕ) (op : Op) : Prop :=
  op.ofMatchs = true → w.pending Request.isMatchs i = 0

/-- No assignment and no removal of one is acknowledged. -/
def NoneEarly (_ : World) (fl : Flight) : Prop :=
  ∀ a ∈ fl.answer, fl.request.unloadsEarly a = false

instance (w : World) (i : ℕ) (op : Op) : Decidable (OneAtATime w i op) :=
  inferInstanceAs (Decidable (_ → _))

instance (w : World) (fl : Flight) : Decidable (NoneEarly w fl) :=
  inferInstanceAs (Decidable (∀ a ∈ fl.answer, _))

/-- Along every run in which operations are started one at a time and no assignment or removal
is acknowledged, the overlay is shown whenever a request of the view model is in flight. -/
theorem overlay_covers_requests {server : Firebase} {sessions : ℕ → Option String} {w : World}
    (hrun : Reaches App.step (fun w l => OnCall OneAtATime w l ∧ OnDeliver NoneEarly w l)
      (World.start server sessions) w) (i : ℕ) (hbusy : w.pending Request.isMatchs i ≠ 0) :
    (w.clients i).matchs.isLoad = true := by
  -- there is at most one request, and its completion issues at most one
  have hone : w.pending Request.isMatchs i ≤ 1 ∧
      (w.pending Request.isMatchs i ≠ 0 → (w.clients i).matchs.isLoad = true) := by
    refine pending_invariant (P := App.service) Request.isMatchs
      (Q := fun c k => k ≤ 1 ∧ (k ≠ 0 → c.matchs.isLoad = true)) hrun
      (fun i => ⟨Nat.zero_le _, fun h => absurd rfl h⟩) ?_ ?_ i
    · intro w i op c rs _ hQ hC hcall
      cases callOverlay_of_call (toOption_eq_some.mp hcall) with
      | sent hop hone hload =>
        have hnone := hC.1 hop
        exact ⟨by omega, fun _ => hload⟩
      | kept hnone hload =>
        rw [hload, hnone, Nat.add_zero]
        exact hQ
      | stranded _ _ hnone hload => exact ⟨by omega, fun _ => hload⟩
    · intro w n d fl a c rs k _ hQ hpending hC hget ha hcomplete
      rw [List.countP_singleton] at hQ
      cases completionOverlay_of_complete (toOption_eq_some.mp hcomplete) with
      | kept hr hnone hload =>
        rw [hr, if_neg (by simp), Nat.add_zero] at hQ
        rw [hload, hnone, Nat.add_zero]
        exact hQ
      | sent hr hone hload =>
        rw [hr, if_pos rfl] at hQ
        exact ⟨by omega, fun _ => hload (hC.2 fl hget a ha) (hQ.2 (by omega))⟩
      | done hr hnone _ =>
        rw [hr, if_pos rfl] at hQ
        exact ⟨by omega, fun hbusy => absurd hbusy (by omega)⟩
      | stranded hr hnone _ _ =>
        rw [hr, if_pos rfl] at hQ
        exact ⟨by omega, fun hbusy => absurd hbusy (by omega)⟩
  exact hone.2 hbusy

/-- A leave, up to the read of the match. -/
def leaving : List Label :=
  [.call 0 (.leaveMatches "m")] ++ roundTrip 0 {}

/-- In the middle of a leave. -/
theorem overlay_covers_leave :
    ∃ w, exec (restrict App.step (fun w l => OnCall OneAtATime w l ∧ OnDeliver NoneEarly w l))
        (World.start (sampleMatch ["n"]) fun _ => some "n") leaving = some w ∧
      w.pending Request.isMatchs 0 ≠ 0 ∧ (w.clients 0).matchs.isLoad = true := by
  obtain ⟨w, hw, hbusy⟩ := Option.map_eq_some_iff.mp (show (exec (restrict App.step
    (fun w l => OnCall OneAtATime w l ∧ OnDeliver NoneEarly w l))
    (World.start (sampleMatch ["n"]) fun _ => some "n") leaving).map
    (fun w => w.pending Request.isMatchs 0) = some 1 from by decide +kernel)
  have hbusy : w.pending Request.isMatchs 0 ≠ 0 := by omega
  exact ⟨w, hw, hbusy, overlay_covers_requests (reaches_of_exec hw) 0 hbusy⟩

/-- An assignment that is acknowledged. -/
def assigned : List Label :=
  [.call 0 (.setPlayerPositionWithMatch "m" "A0" (samplePlayer "n"))] ++ roundTrip 0 {}

/-- The refresh after it is in flight and the overlay is gone. -/
theorem refresh_without_overlay :
    (exec (restrict App.step (OnCall OneAtATime))
      (World.start (sampleMatch ["n"]) fun _ => some "n") assigned).map
      (fun w => (w.pending Request.isMatchs 0, (w.clients 0).matchs.isLoad)) = some (1, false) := by
  decide +kernel

/-! ## The overlay of the account -/

/-- What a completion of `BaseViewModel` does to its overlay: it goes on, or clears it. -/
theorem BaseCompleted.overlay {self vm : BaseViewModel} {currentUserID : Option String}
    {r : BaseViewModel.Request} {a : Answer} {rs : List BaseViewModel.Request}
    (h : BaseCompleted self currentUserID r a vm rs) : rs ≠ [] ∨ vm.isLoad = false := by
  cases h with
  | fetched uid a => cases a <;> exact .inr rfl
  | pictured uid url a => cases a <;> exact .inr rfl
  | signedIn | created | recorded | uploaded | located => exact .inl (by simp)
  | _ => exact .inr rfl

/-- In every run, whenever no request of the account is in flight its overlay is gone. -/
theorem account_overlay_never_stuck {C : World → Label → Prop} {server : Firebase}
    {sessions : ℕ → Option String} {w : World}
    (hrun : Reaches App.step C (World.start server sessions) w) (i : ℕ)
    (hquiet : w.pending Request.isBase i = 0) : (w.clients i).base.isLoad = false := by
  revert hquiet
  refine pending_invariant (P := App.service) Request.isBase
    (Q := fun c k => k = 0 → c.base.isLoad = false) hrun (fun i _ => rfl) ?_ ?_ i
  · intro w i op c rs _ hQ _ hcall hquiet
    cases (called_of_call (toOption_eq_some.mp hcall)).1 with
    | login | register | getCurrentUserData | loadProfileImage => cases hquiet
    | noCurrentUserData | noProfileImage => rfl
    | _ => exact hQ hquiet
  · intro w n d fl a c rs k _ hQ _ _ _ _ hcomplete hquiet
    have hcompleted := (completed_of_complete (toOption_eq_some.mp hcomplete)).1
    generalize fl.request = r at hQ hcompleted
    cases hcompleted with
    | base hbase =>
      rcases hbase.overlay with hsent | hload
      · rw [countP_isBase_map] at hquiet
        exact absurd (List.length_eq_zero_iff.mp (by omega)) hsent
      · exact hload
    | matchs _ =>
      refine hQ ?_
      simp only [List.countP_singleton, Request.isBase, Bool.false_eq_true, if_false]
      omega
    | _ => exact hQ hquiet

/-- A registration whose account is created and whose record cannot be written. -/
def halfRegistered : List Label :=
  [.call 0 (.register "n@mail.com" "secret" "n")] ++ roundTrip 0 { uid := "n" } ++ roundTrip 0 {} ++
    roundTrip 0 { error := some "offline" }

/-- A registration whose account is created and whose user signs out before the callback runs. -/
def signedOutMeanwhile : List Label :=
  [.call 0 (.register "n@mail.com" "secret" "n")] ++ roundTrip 0 { uid := "n" } ++
    [.call 0 (.signOut false)] ++ roundTrip 0 {}

/-- A registration that ends at the exit without a user. -/
theorem account_overlay_after_registration :
    ∃ w, exec (restrict App.step fun _ _ => True) (World.start ⟨.null, []⟩ fun _ => none)
        signedOutMeanwhile = some w ∧
      w.pending Request.isBase 0 = 0 ∧ (w.clients 0).base.isLoad = false := by
  obtain ⟨w, hw, hquiet⟩ := Option.map_eq_some_iff.mp (show (exec (restrict App.step
    fun _ _ => True) (World.start ⟨.null, []⟩ fun _ => none) signedOutMeanwhile).map
    (fun w => w.pending Request.isBase 0) = some 0 from by decide +kernel)
  exact ⟨w, hw, hquiet, account_overlay_never_stuck (reaches_of_exec hw) 0 hquiet⟩

end TifaSoccer
