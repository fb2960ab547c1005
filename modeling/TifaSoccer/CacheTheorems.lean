import TifaSoccer.ClientTheorems
import TifaSoccer.DecodeTheorems

/-!
# What clients remember

A client acts on what it has cached: the list of matches, the selected match with its unplaced
players, the profile of the user, the screen that is open. `CalledFrom` and `CompletedFrom` say
where these come from after a call and after a completion, one field for each; every invariant
of the caches is proved from them.
-/

namespace TifaSoccer

/-! ## Calls -/

/-- The caches after a call: a call fetches nothing, it can only forget. -/
structure CalledFrom (c : Client) (op : Op) (c' : Client) : Prop where
  selectedMatch : c'.matchs.selectedMatch = c.matchs.selectedMatch
  unselectedPlayer : c'.matchs.unselectedPlayer = c.matchs.unselectedPlayer
  matchsModelList : c'.matchs.matchsModelList = c.matchs.matchsModelList ∨
    c'.matchs.matchsModelList = []
  userModel : c'.base.userModel = c.base.userModel ∨ c'.base.userModel = none
  currentUser : c'.currentUser = c.currentUser ∨
    c'.currentUser = none ∧ c'.base.userModel = none
  detail : c'.detail = op.detail c.detail

/-- A call that changes none of the caches. -/
theorem CalledFrom.of_eq {c c' : Client} {op : Op} (hbase : c'.base.userModel = c.base.userModel)
    (huser : c'.currentUser = c.currentUser)
    (hselected : c'.matchs.selectedMatch = c.matchs.selectedMatch)
    (hunselected : c'.matchs.unselectedPlayer = c.matchs.unselectedPlayer)
    (hlist : c'.matchs.matchsModelList = c.matchs.matchsModelList)
    (hdetail : c'.detail = op.detail c.detail) : CalledFrom c op c' :=
  ⟨hselected, hunselected, .inl hlist, .inl hbase, .inl huser, hdetail⟩

/-- Every call does to the caches what `CalledFrom` says. -/
theorem calledFrom_of_call {c c' : Client} {op : Op} {rs : List Request}
    (h : c.call op = .ok (c', rs)) : CalledFrom c op c' := by
  -- only `signOut`, `getCurrentUserData` and `getAllMatchs` touch a cache; the rest set flags
  cases (called_of_call h).1 with
  | signOut => exact ⟨rfl, rfl, .inl rfl, .inr rfl, .inr ⟨rfl, rfl⟩, rfl⟩
  | getCurrentUserData huid => exact ⟨rfl, rfl, .inl rfl, .inr rfl, .inl rfl, rfl⟩
  | noCurrentUserData huid => exact ⟨rfl, rfl, .inl rfl, .inr rfl, .inl rfl, rfl⟩
  | getAllMatchs => exact ⟨rfl, rfl, .inr rfl, .inl rfl, .inl rfl, rfl⟩
  | strandMatchs hstrands =>
    -- none of these calls changes the screen
    refine .of_eq rfl rfl rfl rfl rfl ?_
    cases op <;> first | rfl | cases hstrands
  | _ => exact .of_eq rfl rfl rfl rfl rfl rfl

/-! ## Completions -/

/-- The requests on whose success Auth changes its current user. -/
def Request.signsIn : Request → Bool
  | .base (.login _ _) => true
  | .base (.registerCreate _ _ _) => true
  | _ => false

/-- The account whose record a request fetches. -/
def Request.fetchesUser : Request → Option String
  | .base (.getCurrentUserData uid) => some uid
  | _ => none

/-- The cached profile is gone, or is that of the same account with the same role. -/
def SameProfile (x x' : Option UserModel) : Prop :=
  ∀ u' ∈ x', ∃ u ∈ x, u'.uuid = u.uuid ∧ u'.authority = u.authority

/-- A profile that is not touched is the same. -/
theorem SameProfile.of_eq {x x' : Option UserModel} (h : x' = x) : SameProfile x x' :=
  fun u' hu' => ⟨u', h ▸ hu', rfl, rfl⟩

/-- The caches after a completion, with the request whose answer filled them. -/
structure CompletedFrom (c : Client) (orders : ℕ → DictOrder) (r : Request) (a : Answer)
    (c' : Client) : Prop where
  detail : c'.detail = c.detail
  currentUser : c'.currentUser = c.currentUser ∨
    r.signsIn = true ∧ ∃ uid, a = .user uid ∧ c'.currentUser = some uid
  userModel : (∃ uid, r.fetchesUser = some uid ∧
      c'.base.userModel = a.value.asDictionary.map UserModel.init) ∨
    r.fetchesUser = none ∧ SameProfile c.base.userModel c'.base.userModel
  selection : (c'.matchs.selectedMatch = c.matchs.selectedMatch ∧
      c'.matchs.unselectedPlayer = c.matchs.unselectedPlayer ∧
      ∀ m, r = .matchs (.getMatchWithMatchID m) → a.value.asDictionary = none) ∨
    ∃ m d, r = .matchs (.getMatchWithMatchID m) ∧ a.value.asDictionary = some d ∧
      c'.matchs.selectedMatch = MatchsModel.init (orders 0) d ∧
      c'.matchs.unselectedPlayer = (c.matchs.selectMatch (.init (orders 0) d)).unselectedPlayer
  matchsModelList : ∀ match' ∈ c'.matchs.matchsModelList, match' ∈ c.matchs.matchsModelList ∨
    r = .matchs .getAllMatchs ∧ ∃ order k d, Value.asDictionary (a.value.child k) = some d ∧
      match' = MatchsModel.init order d

/-- A completion that changes none of the caches. -/
theorem CompletedFrom.of_eq {c c' : Client} {orders : ℕ → DictOrder} {r : Request} {a : Answer}
    (hfetches : r.fetchesUser = none) (hselects : ∀ m, r ≠ .matchs (.getMatchWithMatchID m))
    (hbase : c'.base = c.base) (huser : c'.currentUser = c.currentUser)
    (hmatchs : c'.matchs = c.matchs) (hdetail : c'.detail = c.detail) :
    CompletedFrom c orders r a c' := by
  refine ⟨hdetail, .inl huser, .inr ⟨hfetches, .of_eq (by rw [hbase])⟩, .inl ⟨?_, ?_, ?_⟩, ?_⟩
  · rw [hmatchs]
  · rw [hmatchs]
  · intro m hm
    exact absurd hm (hselects m)
  · rw [hmatchs]
    exact fun match' hmatch => .inl hmatch

/-- The loop of `getAllMatchs` adds decodings of children, and changes no other cache. -/
theorem appendChildren_spec (orders : ℕ → DictOrder) (children : List ((String × Node) × ℕ))
    (self : MatchsViewModel) :
    let self' := children.foldl
      (fun self c => MatchsViewModel.appendChild (orders c.2) self c.1.2) self
    self'.selectedMatch = self.selectedMatch ∧ self'.unselectedPlayer = self.unselectedPlayer ∧
      ∀ match' ∈ self'.matchsModelList, match' ∈ self.matchsModelList ∨
        ∃ e ∈ children, ∃ d, Node.asDictionary e.1.2 = some d ∧
          match' = MatchsModel.init (orders e.2) d := by
  -- induction on the children still to come; `self` is what the loop has built so far
  induction children generalizing self with
  | nil => exact ⟨rfl, rfl, fun _ h => .inl h⟩
  | cons e children ih =>
    obtain ⟨hselected, hunselected, hlist⟩ :=
      ih (MatchsViewModel.appendChild (orders e.2) self e.1.2)
    simp only [List.foldl_cons]
    rw [hselected, hunselected]
    unfold MatchsViewModel.appendChild at hlist ⊢
    cases hd : Node.asDictionary e.1.2 with
    | none =>
      -- a child that is no object clears the list, so only later children are left
      simp only [hd] at hlist ⊢
      refine ⟨trivial, trivial, fun match' hmatch => ?_⟩
      rcases hlist match' hmatch with h | ⟨e', he', d, hd', rfl⟩
      · simp at h
      · exact .inr ⟨e', List.mem_cons_of_mem _ he', d, hd', rfl⟩
    | some d =>
      simp only [hd] at hlist ⊢
      refine ⟨trivial, trivial, fun match' hmatch => ?_⟩
      rcases hlist match' hmatch with h | ⟨e', he', d', hd', rfl⟩
      · rcases List.mem_append.mp h with h | h
        · exact .inl h
        · rw [List.mem_singleton.mp h]
          exact .inr ⟨e, List.mem_cons_self .., d, hd, rfl⟩
      · exact .inr ⟨e', List.mem_cons_of_mem _ he', d', hd', rfl⟩

/-- The completions that store nothing: they keep the selection, and keep or clear the list. -/
theorem MatchsCompleted.kept {self vm : MatchsViewModel} {orders : ℕ → DictOrder}
    {r : MatchsViewModel.Request} {a : Answer} {rs : List MatchsViewModel.Request}
    (h : MatchsCompleted self orders r a vm rs) (hr : r.stores = false) :
    vm.selectedMatch = self.selectedMatch ∧ vm.unselectedPlayer = self.unselectedPlayer ∧
      (vm.matchsModelList = self.matchsModelList ∨ vm.matchsModelList = []) := by
  cases h with
  | listed => cases hr
  | selected => cases hr
  -- the list is cleared exactly where the completion goes on with `getAllMatchs`
  | reload | joinFailed => exact ⟨rfl, rfl, .inr rfl⟩
  | _ => exact ⟨rfl, rfl, .inl rfl⟩

/-- The completion of `getAllMatchs` adds decodings of children of the snapshot. -/
theorem getAllMatchsCompletion_spec (self : MatchsViewModel) (orders : ℕ → DictOrder) (a : Answer) :
    (self.getAllMatchsCompletion orders a).selectedMatch = self.selectedMatch ∧
      (self.getAllMatchsCompletion orders a).unselectedPlayer = self.unselectedPlayer ∧
      ∀ match' ∈ (self.getAllMatchsCompletion orders a).matchsModelList,
        match' ∈ self.matchsModelList ∨
          ∃ order k d, Value.asDictionary (a.value.child k) = some d ∧
            match' = MatchsModel.init order d := by
  have happend : ∀ v : Value, let self' := self.appendChildren orders v.entries
      self'.selectedMatch = self.selectedMatch ∧ self'.unselectedPlayer = self.unselectedPlayer ∧
        ∀ match' ∈ self'.matchsModelList, match' ∈ self.matchsModelList ∨
          ∃ order k d, Value.asDictionary (v.child k) = some d ∧
            match' = MatchsModel.init order d := by
    intro v
    obtain ⟨hselected, hunselected, hlist⟩ := appendChildren_spec orders v.entries.zipIdx self
    refine ⟨hselected, hunselected, fun match' hmatch => ?_⟩
    rcases hlist match' hmatch with h | ⟨⟨⟨k, t⟩, i⟩, he, d, hd, rfl⟩
    · exact .inl h
    · have hentry : (k, t) ∈ v.entries := List.fst_mem_of_mem_zipIdx he
      refine .inr ⟨orders i, k, d, ?_, rfl⟩
      rw [Value.asDictionary, Json.mem_entries_iff.mp hentry]
      exact hd
  cases a with
  | error e => exact ⟨rfl, rfl, fun _ h => by cases h⟩
  | _ => exact happend _

/-- The completion of `getMatchWithMatchID` stores the decoded snapshot, or nothing. -/
theorem getMatchWithMatchIDCompletion_spec (self : MatchsViewModel) (order : DictOrder)
    (a : Answer) :
    let self' := self.getMatchWithMatchIDCompletion order a
    self'.matchsModelList = self.matchsModelList ∧
      ((self'.selectedMatch = self.selectedMatch ∧
          self'.unselectedPlayer = self.unselectedPlayer ∧ a.value.asDictionary = none) ∨
        ∃ d, a.value.asDictionary = some d ∧ self'.selectedMatch = MatchsModel.init order d ∧
          self'.unselectedPlayer = (self.selectMatch (.init order d)).unselectedPlayer) := by
  cases a with
  | error e => exact ⟨rfl, .inl ⟨rfl, rfl, rfl⟩⟩
  | _ =>
    simp only [MatchsViewModel.getMatchWithMatchIDCompletion]
    split
    · rename_i d hd
      exact ⟨rfl, .inr ⟨d, hd, rfl, rfl⟩⟩
    · rename_i hd
      exact ⟨rfl, .inl ⟨rfl, rfl, hd⟩⟩

/-- The selection after a completion: fetched, or the old one. -/
theorem MatchsCompleted.selection {self vm : MatchsViewModel} {orders : ℕ → DictOrder}
    {r : MatchsViewModel.Request} {a : Answer} {rs : List MatchsViewModel.Request}
    (h : MatchsCompleted self orders r a vm rs) :
    (vm.selectedMatch = self.selectedMatch ∧ vm.unselectedPlayer = self.unselectedPlayer ∧
        ∀ m, r = .getMatchWithMatchID m → a.value.asDictionary = none) ∨
      ∃ m d, r = .getMatchWithMatchID m ∧ a.value.asDictionary = some d ∧
        vm.selectedMatch = MatchsModel.init (orders 0) d ∧
        vm.unselectedPlayer = (self.selectMatch (.init (orders 0) d)).unselectedPlayer := by
  cases hr : r.stores with
  | false =>
    obtain ⟨hselected, hunselected, -⟩ := h.kept hr
    refine .inl ⟨hselected, hunselected, fun m hm => ?_⟩
    rw [hm] at hr
    cases hr
  | true =>
    -- the two requests that store something
    cases h with
    | listed a =>
      obtain ⟨hselected, hunselected, -⟩ := getAllMatchsCompletion_spec self orders a
      exact .inl ⟨hselected, hunselected, by simp⟩
    | selected m a =>
      rcases (getMatchWithMatchIDCompletion_spec self (orders 0) a).2 with
        ⟨hselected, hunselected, hd⟩ | ⟨d, hd, hselected, hunselected⟩
      · exact .inl ⟨hselected, hunselected, fun _ _ => hd⟩
      · exact .inr ⟨m, d, rfl, hd, hselected, hunselected⟩
    | failed _ hr' =>
      rw [stores_of_alerts hr'] at hr
      cases hr
    | reload hr' =>
      rw [stores_of_reloads hr'] at hr
      cases hr
    | _ => cases hr

/-- Each listed match after a completion was listed before, or is decoded from the answer. -/
theorem MatchsCompleted.mem_list {self vm : MatchsViewModel} {orders : ℕ → DictOrder}
    {r : MatchsViewModel.Request} {a : Answer} {rs : List MatchsViewModel.Request}
    (h : MatchsCompleted self orders r a vm rs) {match' : MatchsModel}
    (hmatch : match' ∈ vm.matchsModelList) :
    match' ∈ self.matchsModelList ∨ r = .getAllMatchs ∧ ∃ order k d,
      Value.asDictionary (a.value.child k) = some d ∧ match' = MatchsModel.init order d := by
  cases h with
  | listed a =>
    rcases (getAllMatchsCompletion_spec self orders a).2.2 match' hmatch with hkept | hfetched
    · exact .inl hkept
    · exact .inr ⟨rfl, hfetched⟩
  | selected m a =>
    rw [(getMatchWithMatchIDCompletion_spec self (orders 0) a).1] at hmatch
    exact .inl hmatch
  | reload | joinFailed => cases hmatch
  | _ => exact .inl hmatch

/-- The profile after a completion of `BaseViewModel`: fetched, or the old one with at most
another picture. -/
theorem BaseCompleted.userModel {self vm : BaseViewModel} {currentUserID : Option String}
    {r : BaseViewModel.Request} {a : Answer} {rs : List BaseViewModel.Request}
    (h : BaseCompleted self currentUserID r a vm rs) :
    (∃ uid, (Request.base r).fetchesUser = some uid ∧
        vm.userModel = a.value.asDictionary.map UserModel.init) ∨
      (Request.base r).fetchesUser = none ∧ SameProfile self.userModel vm.userModel := by
  cases h with
  | fetched uid a => cases a <;> exact .inl ⟨uid, rfl, rfl⟩
  | pictured uid url a =>
    cases a with
    | error e => exact .inr ⟨rfl, SameProfile.of_eq rfl⟩
    | _ =>
      -- the new picture is put into whatever profile is cached now
      refine .inr ⟨rfl, fun u' hu' => ?_⟩
      obtain ⟨u, hu, rfl⟩ := Option.map_eq_some_iff.mp hu'
      exact ⟨u, hu, rfl, rfl⟩
  | refused e hr =>
    have hfetches : (Request.base r).fetchesUser = none := by cases r <;> first | rfl | cases hr
    exact .inr ⟨hfetches, SameProfile.of_eq rfl⟩
  | _ => exact .inr ⟨rfl, SameProfile.of_eq rfl⟩

/-- Auth changes its user by the success of a sign-in or a creation, and to the user of the answer.
-/
theorem authenticated_spec (c : Client) (r : BaseViewModel.Request) (a : Answer) :
    c.authenticated r a = c ∨
      (Request.base r).signsIn = true ∧ ∃ uid, a = .user uid ∧
        c.authenticated r a = { c with currentUser := some uid } := by
  unfold Client.authenticated
  split
  · exact .inr ⟨rfl, _, rfl, rfl⟩
  · exact .inr ⟨rfl, _, rfl, rfl⟩
  · exact .inl rfl

/-- Every completion does to the caches what `CompletedFrom` says. -/
theorem completedFrom_of_complete {c c' : Client} {orders : ℕ → DictOrder} {r : Request}
    {a : Answer} {rs : List Request} (h : c.complete orders r a = .ok (c', rs)) :
    CompletedFrom c orders r a c' := by
  cases (completed_of_complete h).1 with
  | @base r a vm rs hbase =>
    -- Auth changes the session first, then the completion runs
    have huser := hbase.userModel
    rcases authenticated_spec c r a with hauth | ⟨hsigns, uid, rfl, hauth⟩
    · rw [hauth]
      exact ⟨rfl, .inl rfl, huser, .inl ⟨rfl, rfl, by simp⟩, fun _ h => .inl h⟩
    · rw [hauth]
      exact ⟨rfl, .inr ⟨hsigns, uid, rfl, rfl⟩, huser, .inl ⟨rfl, rfl, by simp⟩,
        fun _ h => .inl h⟩
  | matchs hmatchs =>
    refine ⟨rfl, .inl rfl, .inr ⟨rfl, SameProfile.of_eq rfl⟩, ?_, fun match' hmatch => ?_⟩
    · rcases hmatchs.selection with
        ⟨hselected, hunselected, hnone⟩ | ⟨m, d, rfl, hd, hselected, hunselected⟩
      · refine .inl ⟨hselected, hunselected, fun m hm => ?_⟩
        cases hm
        exact hnone m rfl
      · exact .inr ⟨m, d, rfl, hd, hselected, hunselected⟩
    · rcases hmatchs.mem_list hmatch with hkept | ⟨rfl, hfetched⟩
      · exact .inl hkept
      · exact .inr ⟨rfl, hfetched⟩
  | _ => exact .of_eq rfl (by simp) rfl rfl rfl rfl

end TifaSoccer
