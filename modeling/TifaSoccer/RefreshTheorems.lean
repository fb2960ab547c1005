import Mathlib.Data.List.Forall2
import TifaSoccer.ClientTheorems
import TifaSoccer.Lib.Loop
import TifaSoccer.Lib.Pending
import TifaSoccer.Views

/-!
# Overlapping refreshes

`getAllMatchs` and `getAllPlayers` clear their list when they start and append to it when their
answer comes. Two refreshes that overlap clear the list twice and then fill it twice. A list is
the decoding of the last snapshot along runs in which no other refresh is on its way when one is
answered (`refreshes_do_not_duplicate`): since each start clears the list, it is empty as long as a
refresh is on its way.
-/

namespace TifaSoccer

open Async Run

/-! ## The two lists -/

/-- Every child of a snapshot is an object. -/
def AllObjects (v : Value) : Prop :=
  ∀ e ∈ v.entries, (Node.asDictionary e.2).isSome = true

instance (v : Value) : Decidable (AllObjects v) :=
  inferInstanceAs (Decidable (∀ e ∈ v.entries, _))

/-- A step asks for a list anew and clears it, or leaves it alone. -/
def ClearsOrKeeps {α : Type} (lists : Request → Bool) (rs : List Request) (xs xs' : List α) :
    Prop :=
  (rs.countP lists ≠ 0 ∧ xs' = []) ∨ (rs.countP lists = 0 ∧ xs' = xs)

/-- A list a client fills from a snapshot: what asks for the snapshot, and what the entries of
the list decode. The specifications say that nothing touches the list without asking for the
snapshot again, and then it is cleared; that an answer which finds it empty fills it exactly; and
that a failure clears it. -/
structure Listing (α : Type) where
  list : Client → List α
  lists : Request → Bool
  Decodes : String × Node → α → Prop
  call_spec : ∀ {c c' : Client} {op : Op} {rs : List Request}, Called c op c' rs →
    ClearsOrKeeps lists rs (list c) (list c')
  other_spec : ∀ {c c' : Client} {orders : ℕ → DictOrder} {r : Request} {a : Answer}
    {rs : List Request}, Completed c orders r a c' rs → lists r = false →
    ClearsOrKeeps lists rs (list c) (list c')
  silent_spec : ∀ {c c' : Client} {orders : ℕ → DictOrder} {r : Request} {a : Answer}
    {rs : List Request}, Completed c orders r a c' rs → lists r = true → rs = []
  fail_spec : ∀ {c c' : Client} {orders : ℕ → DictOrder} {r : Request} {a : Answer}
    {rs : List Request}, Completed c orders r a c' rs → lists r = true → a.succeeded = false →
    list c' = []
  fill_spec : ∀ {c c' : Client} {orders : ℕ → DictOrder} {r : Request} {a : Answer}
    {rs : List Request}, Completed c orders r a c' rs → lists r = true → a.succeeded = true →
    list c = [] → AllObjects a.value → List.Forall₂ Decodes a.value.entries (list c')

/-! ### The matches -/

def Request.listsMatchs : Request → Bool
  | .matchs .getAllMatchs => true
  | _ => false

def DecodesMatch (e : String × Node) (match' : MatchsModel) : Prop :=
  ∃ order d, Node.asDictionary e.2 = some d ∧ match' = MatchsModel.init order d

/-- The loop of `getAllMatchs`, seen from its list. -/
theorem matchsModelList_loop (orders : ℕ → DictOrder) (self : MatchsViewModel)
    (children : Dictionary) :
    (self.appendChildren orders children).matchsModelList =
      children.zipIdx.foldl (appendOrClear fun c =>
        (Node.asDictionary c.1.2).map (MatchsModel.init (orders c.2))) self.matchsModelList := by
  refine (List.foldl_hom MatchsViewModel.matchsModelList fun self c => ?_).symm
  unfold MatchsViewModel.appendChild appendOrClear
  cases hd : Node.asDictionary c.1.2 with
  | none => simp [hd]
  | some d => simp [hd]

/-- The loop of `getAllMatchs` appends one decoding for each child. -/
theorem matchsModelList_appendChildren (orders : ℕ → DictOrder) (self : MatchsViewModel)
    {v : Value} (hall : AllObjects v) :
    ∃ xs, (self.appendChildren orders v.entries).matchsModelList = self.matchsModelList ++ xs ∧
      List.Forall₂ DecodesMatch v.entries xs := by
  have hgood : ∀ c ∈ v.entries.zipIdx,
      ((Node.asDictionary c.1.2).map (MatchsModel.init (orders c.2))).isSome = true := by
    intro c hc
    rw [Option.isSome_map]
    exact hall c.1 (List.fst_mem_of_mem_zipIdx hc)
  obtain ⟨xs, hxs, hmade⟩ := foldl_appendOrClear_of_forall hgood self.matchsModelList
  refine ⟨xs, (matchsModelList_loop orders self v.entries).trans hxs, ?_⟩
  have hdecodes : List.Forall₂ (fun c => DecodesMatch c.1) v.entries.zipIdx xs := by
    refine hmade.imp fun c match' hc => ?_
    obtain ⟨d, hd, rfl⟩ := Option.map_eq_some_iff.mp hc
    exact ⟨_, d, hd, rfl⟩
  rw [← List.forall₂_map_left_iff (f := Prod.fst), List.zipIdx_map_fst] at hdecodes
  exact hdecodes

/-- One request lists the matches. -/
theorem listsMatchs_iff {r : Request} : r.listsMatchs = true ↔ r = .matchs .getAllMatchs := by
  unfold Request.listsMatchs
  split
  · simp
  · simpa using ‹_›

/-- Only the completion of `getAllMatchs`, and what asks for a new list, changes the list. -/
theorem matchsModelList_of_other {c c' : Client} {orders : ℕ → DictOrder} {r : Request} {a : Answer}
    {rs : List Request} (h : Completed c orders r a c' rs) (hr : r.listsMatchs = false) :
    ClearsOrKeeps Request.listsMatchs rs c.matchs.matchsModelList c'.matchs.matchsModelList := by
  cases h with
  | @base r a vm rs _ =>
    refine .inr ⟨by simp [List.countP_eq_zero, Request.listsMatchs], ?_⟩
    unfold Client.authenticated
    split <;> rfl
  | matchs hmatchs =>
    cases hmatchs with
    | listed _ => cases hr
    | selected m _ =>
      refine .inr ⟨rfl, ?_⟩
      show (c.matchs.getMatchWithMatchIDCompletion (orders 0) a).matchsModelList = _
      unfold MatchsViewModel.getMatchWithMatchIDCompletion
      split
      · rfl
      · split <;> rfl
    | reload | joinFailed => exact .inl ⟨by simp [Request.listsMatchs], rfl⟩
    | _ => exact .inr ⟨rfl, rfl⟩
  | _ => exact .inr ⟨rfl, rfl⟩

/-- The completion of `getAllMatchs` sends nothing, and a failure clears the list. -/
theorem matchsCompleted_getAllMatchs {c c' : Client} {orders : ℕ → DictOrder} {r : Request}
    {a : Answer} {rs : List Request} (h : Completed c orders r a c' rs)
    (hr : r.listsMatchs = true) :
    rs = [] ∧ c'.matchs = c.matchs.getAllMatchsCompletion orders a := by
  obtain rfl := listsMatchs_iff.mp hr
  cases h with
  | matchs hmatchs =>
    cases hmatchs with
    | listed _ => exact ⟨rfl, rfl⟩
    | failed _ halerts => cases halerts
    | reload hreloads => cases hreloads

/-- A refresh that fails leaves an empty list. -/
theorem matchsModelList_of_fail {c c' : Client} {orders : ℕ → DictOrder} {r : Request} {a : Answer}
    {rs : List Request} (h : Completed c orders r a c' rs) (hr : r.listsMatchs = true)
    (ha : a.succeeded = false) : c'.matchs.matchsModelList = [] := by
  obtain ⟨e, rfl⟩ := not_succeeded_iff.mp ha
  rw [(matchsCompleted_getAllMatchs h hr).2]
  rfl

/-- A refresh that succeeds fills an empty list with its answer. -/
theorem matchsModelList_of_fill {c c' : Client} {orders : ℕ → DictOrder} {r : Request} {a : Answer}
    {rs : List Request} (h : Completed c orders r a c' rs) (hr : r.listsMatchs = true)
    (ha : a.succeeded = true) (hempty : c.matchs.matchsModelList = []) (hall : AllObjects a.value) :
    List.Forall₂ DecodesMatch a.value.entries c'.matchs.matchsModelList := by
  obtain ⟨xs, hxs, hdecodes⟩ := matchsModelList_appendChildren orders c.matchs hall
  rw [(matchsCompleted_getAllMatchs h hr).2, getAllMatchsCompletion_of_succeeded _ _ ha, hxs,
    hempty, List.nil_append]
  exact hdecodes

/-- `matchsModelList` -/
def matchsListing : Listing MatchsModel where
  list c := c.matchs.matchsModelList
  lists := Request.listsMatchs
  Decodes := DecodesMatch
  call_spec h := by
    cases h with
    | getAllMatchs => exact .inl ⟨by simp [Request.listsMatchs], rfl⟩
    | sendMatchs hissues hr hscreen => exact .inr ⟨by simp [Request.listsMatchs, hr], rfl⟩
    | _ => exact .inr ⟨rfl, rfl⟩
  other_spec := matchsModelList_of_other
  silent_spec h hr := (matchsCompleted_getAllMatchs h hr).1
  fail_spec := matchsModelList_of_fail
  fill_spec := matchsModelList_of_fill

/-! ### The players -/

def Request.listsPlayers : Request → Bool
  | .players .getAllPlayers => true
  | _ => false

def DecodesUser (e : String × Node) (user : UserModel) : Prop :=
  ∃ d, Node.asDictionary e.2 = some d ∧ user = UserModel.init d

/-- The loop of `getAllPlayers`, seen from its list. -/
theorem userModelList_loop (children : Dictionary) (self : PlayersViewModel) :
    (children.foldl (fun self c => self.appendChild c.2) self).userModelList =
      children.foldl (appendOrClear fun c => (Node.asDictionary c.2).map UserModel.init)
        self.userModelList := by
  refine (List.foldl_hom PlayersViewModel.userModelList fun self c => ?_).symm
  unfold PlayersViewModel.appendChild appendOrClear
  cases hd : Node.asDictionary c.2 with
  | none => simp [hd]
  | some d => simp [hd]

/-- The loop of `getAllPlayers` appends one decoding for each child. -/
theorem userModelList_appendChild (children : List (String × Node)) (self : PlayersViewModel)
    (hall : ∀ e ∈ children, (Node.asDictionary e.2).isSome = true) :
    ∃ xs, (children.foldl (fun self c => self.appendChild c.2) self).userModelList =
        self.userModelList ++ xs ∧ List.Forall₂ DecodesUser children xs := by
  have hgood : ∀ e ∈ children, ((Node.asDictionary e.2).map UserModel.init).isSome = true := by
    intro e he
    rw [Option.isSome_map]
    exact hall e he
  obtain ⟨xs, hxs, hmade⟩ := foldl_appendOrClear_of_forall hgood self.userModelList
  refine ⟨xs, (userModelList_loop children self).trans hxs, hmade.imp fun e user he => ?_⟩
  obtain ⟨d, hd, rfl⟩ := Option.map_eq_some_iff.mp he
  exact ⟨d, hd, rfl⟩

/-- Other completions clear the list of players or keep it. -/
theorem userModelList_of_other {c c' : Client} {orders : ℕ → DictOrder} {r : Request} {a : Answer}
    {rs : List Request} (h : Completed c orders r a c' rs) (hr : r.listsPlayers = false) :
    ClearsOrKeeps Request.listsPlayers rs c.players.userModelList c'.players.userModelList := by
  cases h with
  | @base r a vm rs _ =>
    refine .inr ⟨by simp [List.countP_eq_zero, Request.listsPlayers], ?_⟩
    unfold Client.authenticated
    split <;> rfl
  | @matchs r a vm rs _ =>
    exact .inr ⟨by simp [List.countP_eq_zero, Request.listsPlayers], rfl⟩
  | players r _ =>
    cases r
    cases hr
  | _ => exact .inr ⟨rfl, rfl⟩

/-- A refresh of the players that fails leaves an empty list. -/
theorem userModelList_of_fail {c c' : Client} {orders : ℕ → DictOrder} {r : Request} {a : Answer}
    {rs : List Request} (h : Completed c orders r a c' rs) (hr : r.listsPlayers = true)
    (ha : a.succeeded = false) : c'.players.userModelList = [] := by
  obtain ⟨e, rfl⟩ := not_succeeded_iff.mp ha
  cases h with
  | players _ _ => rfl
  | _ => cases hr

/-- A refresh of the players that succeeds fills an empty list with its answer. -/
theorem userModelList_of_fill {c c' : Client} {orders : ℕ → DictOrder} {r : Request} {a : Answer}
    {rs : List Request} (h : Completed c orders r a c' rs) (hr : r.listsPlayers = true)
    (ha : a.succeeded = true) (hempty : c.players.userModelList = []) (hall : AllObjects a.value) :
    List.Forall₂ DecodesUser a.value.entries c'.players.userModelList := by
  cases h with
  | players r _ =>
    have hloop : c.players.complete r a =
        a.value.entries.foldl (fun self c => self.appendChild c.2) c.players := by
      cases a with
      | error e => cases ha
      | _ => rfl
    obtain ⟨xs, hxs, hdecodes⟩ := userModelList_appendChild _ c.players hall
    show List.Forall₂ _ _ (c.players.complete r a).userModelList
    rw [hloop, hxs, hempty, List.nil_append]
    exact hdecodes
  | _ => cases hr

/-- `userModelList` -/
def playersListing : Listing UserModel where
  list c := c.players.userModelList
  lists := Request.listsPlayers
  Decodes := DecodesUser
  call_spec h := by
    cases h with
    | getAllPlayers => exact .inl ⟨by simp [Request.listsPlayers], rfl⟩
    | _ => exact .inr ⟨rfl, rfl⟩
  other_spec := userModelList_of_other
  silent_spec h hr := by
    cases h with
    | players _ _ => rfl
    | _ => cases hr
  fail_spec := userModelList_of_fail
  fill_spec := userModelList_of_fill

/-! ## Runs -/

/-- The last snapshot each list has received; none when its last answer was an error. -/
structure Snapshots where
  matchs : Option Value := none
  players : Option Value := none

namespace Listing

variable {α : Type} (L : Listing α)

/-- The last snapshot after an answer has been taken. -/
def received (fl : Flight) (last : Option Value) : Option Value :=
  if L.lists fl.request then
    fl.answer.bind fun a => if a.succeeded then some a.value else none
  else last

/-- When a snapshot with children is taken, no other refresh of the list is on its way; and all
children are objects. -/
def TakenAlone (w : World) (fl : Flight) : Prop :=
  L.lists fl.request = true → ∀ a ∈ fl.answer, a.succeeded = true →
    AllObjects a.value ∧ (a.value.entries ≠ [] → w.pending L.lists fl.owner = 1)

instance (w : World) (fl : Flight) : Decidable (L.TakenAlone w fl) :=
  inferInstanceAs (Decidable (_ → ∀ a ∈ fl.answer, _))

/-- The list of a client is empty while a refresh is on its way, and then the decoding of the last
snapshot. -/
def Exact (c : Client) (last : Option Value) (k : ℕ) : Prop :=
  (k ≠ 0 → L.list c = []) ∧
    (k = 0 → ∀ v ∈ last, List.Forall₂ L.Decodes v.entries (L.list c))

variable {L}

/-- A step that clears or keeps the list keeps the invariant. -/
theorem exact_of_clearsOrKeeps {c c' : Client} {rs : List Request} {last : Option Value} {k : ℕ}
    (h : L.Exact c last k) (hlist : ClearsOrKeeps L.lists rs (L.list c) (L.list c')) :
    L.Exact c' last (k + rs.countP L.lists) := by
  rcases hlist with ⟨hasked, hempty⟩ | ⟨hnone, hsame⟩
  · exact ⟨fun _ => hempty, fun hquiet => absurd hquiet (by omega)⟩
  · rw [hnone, Nat.add_zero, Exact, hsame]
    exact h

/-- A completion keeps the invariant. -/
theorem exact_of_complete {w : World} {fl : Flight} {a : Answer} {c' : Client}
    {orders : ℕ → DictOrder} {rs : List Request} {last : Option Value} {k : ℕ}
    (h : L.Exact (w.clients fl.owner) last (k + [fl.request].countP L.lists))
    (hpending : w.pending L.lists fl.owner = k + [fl.request].countP L.lists)
    (hcond : L.TakenAlone w fl) (ha : fl.answer = some a)
    (hcompleted : Completed (w.clients fl.owner) orders fl.request a c' rs) :
    L.Exact c' (L.received fl last) (k + rs.countP L.lists) := by
  rw [List.countP_singleton] at h hpending
  unfold received
  cases hr : L.lists fl.request with
  | false =>
    rw [hr, if_neg (by simp)] at h
    rw [if_neg (by simp)]
    exact exact_of_clearsOrKeeps h (L.other_spec hcompleted hr)
  | true =>
    rw [hr, if_pos rfl] at h hpending
    rw [if_pos rfl, ha, Option.bind_some, L.silent_spec hcompleted hr, List.countP_nil,
      Nat.add_zero]
    cases hsucceeded : a.succeeded with
    | false =>
      have hempty : L.list c' = [] := L.fail_spec hcompleted hr hsucceeded
      exact ⟨fun _ => hempty, fun _ v hv => by cases hv⟩
    | true =>
      -- the refresh was on its way, so the list has been empty up to now
      obtain ⟨hall, halone⟩ := hcond hr a ha hsucceeded
      have hfilled : List.Forall₂ L.Decodes a.value.entries (L.list c') :=
        L.fill_spec hcompleted hr hsucceeded (h.1 (by omega)) hall
      refine ⟨fun hbusy => ?_, fun _ v hv => ?_⟩
      · have hnone : a.value.entries = [] := by
          by_contra hne
          have hone := halone hne
          omega
        rw [hnone] at hfilled
        exact List.forall₂_nil_left_iff.mp hfilled
      · cases hv
        exact hfilled

end Listing

/-- The last snapshots each client has received. -/
def lastSnapshots : (ℕ → Snapshots) → World → Label → ℕ → Snapshots :=
  delivered fun fl last =>
    ⟨matchsListing.received fl last.matchs, playersListing.received fl last.players⟩

/-- Along every run in which a list is answered only while no other refresh of it is on its way,
with objects only, whenever no request for a list is in flight and the last one has succeeded, the
list has one decoded model for each child of the last snapshot, in order. -/
theorem refreshes_do_not_duplicate {server : Firebase} {sessions : ℕ → Option String}
    {s : World × (ℕ → Snapshots)}
    (hrun : Reaches (record App.step lastSnapshots)
      (fun s l => OnDeliver matchsListing.TakenAlone s.1 l ∧
        OnDeliver playersListing.TakenAlone s.1 l)
      (World.start server sessions, fun _ => {}) s) (i : ℕ) :
    (s.1.pending Request.listsMatchs i = 0 → ∀ v ∈ (s.2 i).matchs,
      List.Forall₂ DecodesMatch v.entries (s.1.clients i).matchs.matchsModelList) ∧
      (s.1.pending Request.listsPlayers i = 0 → ∀ v ∈ (s.2 i).players,
        List.Forall₂ DecodesUser v.entries (s.1.clients i).players.userModelList) := by
  constructor
  · refine (pending_invariant_recorded (P := App.service) Request.listsMatchs
      (Q := fun c last k => matchsListing.Exact c last.matchs k) hrun
      (fun i => ⟨fun _ => rfl, fun _ v hv => by cases hv⟩) ?_ ?_ i).2
    · intro s i op c rs _ hQ _ hcall
      exact Listing.exact_of_clearsOrKeeps hQ
        (matchsListing.call_spec (called_of_call (toOption_eq_some.mp hcall)).1)
    · intro s n d fl a c rs k _ hQ hpending hC hget ha hcomplete
      exact Listing.exact_of_complete hQ hpending (hC.1 fl hget) ha
        (completed_of_complete (toOption_eq_some.mp hcomplete)).1
  · refine (pending_invariant_recorded (P := App.service) Request.listsPlayers
      (Q := fun c last k => playersListing.Exact c last.players k) hrun
      (fun i => ⟨fun _ => rfl, fun _ v hv => by cases hv⟩) ?_ ?_ i).2
    · intro s i op c rs _ hQ _ hcall
      exact Listing.exact_of_clearsOrKeeps hQ
        (playersListing.call_spec (called_of_call (toOption_eq_some.mp hcall)).1)
    · intro s n d fl a c rs k _ hQ hpending hC hget ha hcomplete
      exact Listing.exact_of_complete hQ hpending (hC.2 fl hget) ha
        (completed_of_complete (toOption_eq_some.mp hcomplete)).1

/-- Two refreshes one after the other, and the list of the players. -/
def refreshedTwice : List Label :=
  [.call 0 .getAllMatchs] ++ roundTrip 0 {} ++ [.call 0 .getAllMatchs, .call 0 .getAllPlayers] ++
    roundTrip 0 {} ++ roundTrip 0 {}

/-- Two refreshes, one after the other. -/
theorem refreshes_do_not_duplicate_one_by_one :
    ∃ s v, exec (restrict (record App.step lastSnapshots)
        (fun s l => OnDeliver matchsListing.TakenAlone s.1 l ∧
          OnDeliver playersListing.TakenAlone s.1 l))
        (World.start (sampleMatch ["n"]) fun _ => some "n", fun _ => {}) refreshedTwice = some s ∧
      (s.2 0).matchs = some v ∧ v.childrenCount = 1 ∧
      List.Forall₂ DecodesMatch v.entries (s.1.clients 0).matchs.matchsModelList := by
  obtain ⟨s, hs, hend⟩ := Option.map_eq_some_iff.mp (show (exec (restrict (record App.step
    lastSnapshots) (fun s l => OnDeliver matchsListing.TakenAlone s.1 l ∧
      OnDeliver playersListing.TakenAlone s.1 l))
    (World.start (sampleMatch ["n"]) fun _ => some "n", fun _ => {}) refreshedTwice).map
    (fun s => (s.1.pending Request.listsMatchs 0, (s.2 0).matchs.map Json.childrenCount)) =
    some (0, some 1) from by decide +kernel)
  simp only [Prod.mk.injEq, Option.map_eq_some_iff] at hend
  obtain ⟨hquiet, v, hv, hcount⟩ := hend
  exact ⟨s, v, hs, hv, hcount, (refreshes_do_not_duplicate (reaches_of_exec hs) 0).1 hquiet v hv⟩

/-- Two refreshes overlap; the answers come in the order of the requests. -/
def refreshesOverlap : List Label :=
  [.call 0 .getAllMatchs, .call 0 .getAllMatchs] ++ roundTrip 0 {} ++ roundTrip 0 {}

/-- The only match is in the list twice. -/
theorem overlapping_refreshes_duplicate :
    ∃ s v, exec (restrict (record App.step lastSnapshots)
        (fun s l => OnCall (fun w i op => (w.clients i).Offers op) s.1 l))
        (World.start (sampleMatch ["n"]) fun _ => some "n", fun _ => {}) refreshesOverlap =
        some s ∧
      s.1.pending Request.listsMatchs 0 = 0 ∧ (s.2 0).matchs = some v ∧
      ¬ List.Forall₂ DecodesMatch v.entries (s.1.clients 0).matchs.matchsModelList := by
  obtain ⟨s, hs, hend⟩ := Option.map_eq_some_iff.mp (show (exec (restrict (record App.step
    lastSnapshots) (fun s l => OnCall (fun w i op => (w.clients i).Offers op) s.1 l))
    (World.start (sampleMatch ["n"]) fun _ => some "n", fun _ => {}) refreshesOverlap).map
    (fun s => (s.1.pending Request.listsMatchs 0, (s.2 0).matchs.map Json.childrenCount,
      (s.1.clients 0).matchs.matchsModelList.length)) = some (0, some 1, 2)
    from by decide +kernel)
  simp only [Prod.mk.injEq, Option.map_eq_some_iff] at hend
  obtain ⟨hquiet, ⟨v, hv, hcount⟩, hlength⟩ := hend
  refine ⟨s, v, hs, hquiet, hv, fun hdecodes => ?_⟩
  have hsame : v.childrenCount = (s.1.clients 0).matchs.matchsModelList.length :=
    hdecodes.length_eq
  omega

end TifaSoccer
