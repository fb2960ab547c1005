import TifaSoccer.AloneTheorems
import TifaSoccer.DocumentTheorems
import TifaSoccer.Lib.Pending
import TifaSoccer.ResolveTheorems

/-!
# The comments of a match

A comment is written under a generated key and carries a generated uuid. The keys and the uuids in
use are those stored and those of the requests the server has not answered yet. A call takes fresh
ones into use, and the answer to the request only moves them from one place to the other; so no
comment is ever written over another one, and `Comments` is the list of what has been acknowledged
(`comments_never_lost`). That takes ids of matches which have no slash: under the stored id
`m/Comments` the whole list is a match that can be deleted (`slashed_match_loses_comments`).
-/

namespace TifaSoccer

open Async Run

/-! ## Writes -/

/-- `Matchs/m/Comments` -/
def comments (db : Value) (m : String) : Value := (matchNode db m).child "Comments"

/-- What `addComment` sends. -/
structure NewComment where
  key : String
  comment : String
  uuid : String
  date : String
deriving DecidableEq

/-- The value it stores under its key. -/
def NewComment.value (c : NewComment) : Value :=
  .object (MatchsViewModel.commentParams c.comment c.uuid c.date)

/-- The comment a request adds to `m`. -/
def Request.newComment (m : String) : Request → Option NewComment
  | .matchs (.addComment matchID key comment uuid date) =>
    if matchID = m then some ⟨key, comment, uuid, date⟩ else none
  | _ => none

/-- The comment that a request writes. -/
theorem newComment_eq_some {m : String} {r : Request} {c : NewComment} :
    r.newComment m = some c ↔
      r = .matchs (.addComment m c.key c.comment c.uuid c.date) := by
  constructor
  · intro h
    unfold Request.newComment at h
    split at h
    · split_ifs at h with hm
      cases h
      rw [hm]
    · cases h
  · rintro rfl
    simp [Request.newComment]

/-- What a server step does to the comments of `m`. -/
inductive CommentStep (m : String) (r : Request) (o : Outcome) (before after : Value) : Prop
  | unchanged (hfailed : r.newComment m = none ∨ o.error ≠ none) (h : after = before)
  | added (c : NewComment) (hr : r.newComment m = some c) (ho : o.error = none)
      (h : after = before.setChild c.key c.value)
  | created (hr : r.creates = some m) (ho : o.error = none) (h : after = .null)
  | deleted (hr : r.deletes = some m)

/-- The key of the comment has no slash. -/
def UnsplitKey (m : String) (r : Request) : Prop :=
  ∀ c ∈ r.newComment m, '/' ∉ c.key.toList

instance (m : String) (r : Request) : Decidable (UnsplitKey m r) :=
  inferInstanceAs (Decidable (∀ c ∈ r.newComment m, _))

/-- What a server step does to the comments of a match. -/
theorem commentStep_serve (s : Firebase) {r : Request} {q : Remote} (hq : r.remote = .ok q)
    (o : Outcome) {m : String} (hmatch : ∀ m' ∈ r.matchID, '/' ∉ m'.toList)
    (hkey : UnsplitKey m r) :
    CommentStep m r o (comments s.database m) (comments (r.serveResolved s o).1.database m) := by
  by_cases hadds : ∃ c, r.newComment m = some c ∧ o.error = none
  · obtain ⟨c, hr, ho⟩ := hadds
    refine .added c hr ho ?_
    have hslash := hkey c hr
    rw [newComment_eq_some] at hr
    subst hr
    have hw := MatchWrite.comment (m := m) c.key c.comment c.uuid c.date
    obtain ⟨hm, hp, -⟩ := hw.remote_eq_ok.mp hq
    rw [comments, matchNode_writeResolved hw hm (hmatch m rfl) hp s ho,
      flatMap_pathComponents_cons (by decide) (by decide),
      flatMap_pathComponents_cons (fun hk => hp (by simp [hk])) hslash]
    simp [comments, NewComment.value]
  · have hnone : r.newComment m = none ∨ o.error ≠ none := by
      by_contra hboth
      rw [not_or, not_not] at hboth
      obtain ⟨c, hc⟩ := Option.ne_none_iff_exists'.mp hboth.1
      exact hadds ⟨c, hc, hboth.2⟩
    rcases matchNode_serveResolved hmatch s o m with h | ⟨p, v, ho, hw, -, h⟩
    · exact .unchanged hnone (by rw [comments, h]; rfl)
    · cases hw with
      | create adminMessage footballArea startDate finishDate =>
        refine .created rfl ho ?_
        rw [comments, h]
        simp [Json.object, CreateMatchViewModel.matchParams]
      | delete => exact .deleted rfl
      | comment key comment uuid date =>
        exact absurd ⟨⟨key, comment, uuid, date⟩, newComment_eq_some.mpr rfl, ho⟩ hadds
      | _ =>
        -- the path goes below another child of the match
        refine .unchanged hnone ?_
        rw [comments, h, flatMap_pathComponents_cons (by decide) (by decide)]
        simp [comments]

/-- What is stored for a comment, field by field. -/
def NewComment.node (c : NewComment) : Node :=
  .object [("comment", .leaf (.str c.comment)), ("date", .leaf (.str c.date)),
    ("uuid", .leaf (.str c.uuid))]

/-- A comment is written as one node. -/
theorem NewComment.root_value (c : NewComment) : c.value.root = some c.node := by
  have h₁ : ¬ "uuid" < "comment" := by decide
  have h₂ : "date" < "uuid" := by decide
  have h₃ : ¬ "date" < "comment" := by decide
  simp [NewComment.value, NewComment.node, MatchsViewModel.commentParams, Json.object,
    Json.setChild, JsonTree.setChild, Entries.put, JsonTree.entries, Json.leaf, Json.null, h₁, h₂,
    h₃]

/-! ## Keys and uuids in use -/

/-- The uuids the decoder reads from the stored comments. -/
def storedUUIDs (db : Value) (m : String) : List String :=
  (comments db m).entries.filterMap fun e =>
    (Node.asDictionary e.2).map fun d => d.string "uuid"

/-- The keys under which comments are stored or about to be. -/
def commentKeys (m : String) (w : World) : List String :=
  (comments w.server.database m).keys ++ (w.waiting (Request.newComment m)).map NewComment.key

/-- The uuids of the comments that are stored or about to be. -/
def commentUUIDs (m : String) (w : World) : List String :=
  storedUUIDs w.server.database m ++ (w.waiting (Request.newComment m)).map NewComment.uuid

/-- No key and no uuid is used twice. -/
structure CommentsApart (m : String) (w : World) : Prop where
  keys : (commentKeys m w).Nodup
  uuids : (commentUUIDs m w).Nodup

/-- The match an operation deletes. -/
def Op.deletes : Op → Option String
  | .deleteMatches matchsID => some matchsID
  | _ => none

/-- The comment an operation sends to `m`. -/
def Op.newComment (c : Client) (m : String) : Op → Option NewComment
  | .addComment comment uuid date key =>
    if c.matchs.selectedMatch.matchID = some m then some ⟨key, comment, uuid, date⟩ else none
  | _ => none

/-- The match is not deleted, and what is generated for a comment on it is not in use. -/
def FreshComment (m : String) (w : World) (i : ℕ) (op : Op) : Prop :=
  op.deletes ≠ some m ∧ ∀ c ∈ op.newComment (w.clients i) m,
    c.key ∉ commentKeys m w ∧ c.uuid ∉ commentUUIDs m w

/-- The id generated for a new match is not that of a stored one. -/
def FreshMatch (m : String) (w : World) (fl : Flight) (o : Outcome) : Prop :=
  fl.request.creates = some m → o.error = none → (matchNode w.server.database m).isNull = true

/-- Anything but a deletion of the match, with generated ids that are fresh. -/
def CommentsFresh (m : String) (w : World) (l : Label) : Prop :=
  OnCall (FreshComment m) w l ∧ OnServe (FreshMatch m) w l

/-- What is served names its match, and the comment it adds to `m`, by an id without a slash. -/
def UnsplitComment (m : String) (w : World) (fl : Flight) (o : Outcome) : Prop :=
  UnsplitMatch w fl o ∧ UnsplitKey m fl.request

/-- The steps under which comments are kept. -/
def CommentsKept (m : String) (w : World) (l : Label) : Prop :=
  CommentsFresh m w l ∧ OnServe (UnsplitComment m) w l

instance (m : String) (w : World) (i : ℕ) (op : Op) : Decidable (FreshComment m w i op) :=
  inferInstanceAs (Decidable (op.deletes ≠ some m ∧ ∀ c ∈ op.newComment (w.clients i) m, _))

instance (m : String) (w : World) (fl : Flight) (o : Outcome) : Decidable (FreshMatch m w fl o) :=
  inferInstanceAs (Decidable (fl.request.creates = some m → o.error = none → _))

instance (m : String) (w : World) (l : Label) : Decidable (CommentsFresh m w l) :=
  inferInstanceAs (Decidable (OnCall (FreshComment m) w l ∧ OnServe (FreshMatch m) w l))

instance (m : String) (w : World) (fl : Flight) (o : Outcome) :
    Decidable (UnsplitComment m w fl o) :=
  inferInstanceAs (Decidable (UnsplitMatch w fl o ∧ UnsplitKey m fl.request))

instance (m : String) (w : World) (l : Label) : Decidable (CommentsKept m w l) :=
  inferInstanceAs (Decidable (CommentsFresh m w l ∧ OnServe (UnsplitComment m) w l))

/-! ## Calls and completions -/

/-- A call sends one comment at most. -/
theorem filterMap_called {c c' : Client} {op : Op} {rs : List Request}
    (h : c.call op = .ok (c', rs)) (m : String) :
    rs.filterMap (Request.newComment m) = [] ∨
      ∃ comment, op.newComment c m = some comment ∧
        rs.filterMap (Request.newComment m) = [comment] := by
  have hissues : ∀ r ∈ rs, CallIssues c op r := fun r hr => (issues_of_call h hr).1
  have hlength := App.sequential.call (toOption_eq_some.mpr h)
  rcases rs with _ | ⟨r, _ | ⟨r', rs⟩⟩
  · exact .inl rfl
  · cases hr : r.newComment m with
    | none => exact .inl (by simp [hr])
    | some comment =>
      refine .inr ⟨comment, ?_, by simp [hr]⟩
      have hsent := hissues r (List.mem_singleton_self r)
      rw [newComment_eq_some.mp hr] at hsent
      cases hsent with
      | addComment comment uuid date key hm => exact if_pos hm
  · simp at hlength

/-- A completion sends no comment. -/
theorem filterMap_completed {c c' : Client} {orders : ℕ → DictOrder} {r : Request} {a : Answer}
    {rs : List Request} (h : c.complete orders r a = .ok (c', rs)) (m : String) :
    rs.filterMap (Request.newComment m) = [] := by
  rw [List.filterMap_eq_nil_iff]
  intro r' hr'
  have hissues := (issues_of_complete h hr').1
  cases hissues <;> rfl

/-- A deletion comes from a call. -/
theorem not_deletes_of_reaches {m : String} {w₀ w : World} (h₀ : w₀.flights = [])
    (hrun : Reaches App.resolvingService.step (CommentsKept m) w₀ w) :
    ∀ fl ∈ w.flights, fl.request.deletes ≠ some m := by
  refine flight_invariant (P := App.resolvingService) hrun h₀ ?_ ?_ ?_
  · intro w i op c rs r _ hC hcall hr
    have hissues := (issues_of_call (toOption_eq_some.mp hcall) hr).1
    cases hissues with
    | deleteMatches m' => exact hC.1.1.1
    | _ => simp [Request.deletes]
  · intro w n o fl _ _ _ _ hJ
    exact hJ
  · intro w n d fl a c rs r _ _ _ _ _ hcomplete hr
    have hissues := (issues_of_complete (toOption_eq_some.mp hcomplete) hr).1
    generalize fl.request = r₀ at hissues
    cases hissues <;> simp [Request.deletes]

/-! ## One step -/

/-- What is stored for a comment, under its key. -/
def NewComment.entry (c : NewComment) : String × Node := (c.key, c.node)

/-- The comments on `m` that have been acknowledged. -/
def acknowledgedComments (m : String) :
    List NewComment → World → Label → List NewComment :=
  served fun o fl acks =>
    if o.error = none then acks ++ (fl.request.newComment m).toList else acks

/-- A server step, under the conditions of a run: nothing happens to the comments, or one that
waited is acknowledged and stored beside the others. -/
theorem comments_served {m : String} {w : World} {n : ℕ} {fl : Flight} {o : Outcome} {q : Remote}
    (hq : fl.request.remote = .ok q) (hdelete : fl.request.deletes ≠ some m)
    (hC : CommentsKept m w (.serve n o)) (hget : w.flights[n]? = some fl) :
    (comments (fl.request.serveResolved w.server o).1.database m = comments w.server.database m ∧
        (fl.request.newComment m = none ∨ o.error ≠ none)) ∨
      ∃ c, fl.request.newComment m = some c ∧ o.error = none ∧
        comments (fl.request.serveResolved w.server o).1.database m =
          (comments w.server.database m).setChild c.key c.value := by
  obtain ⟨hmatch, hkey⟩ := hC.2 fl hget
  cases commentStep_serve w.server hq o hmatch hkey with
  | unchanged hfailed h => exact .inl ⟨h, hfailed⟩
  | added c hr ho h => exact .inr ⟨c, hr, ho, h⟩
  | created hr ho h =>
    -- a new match has no comments, and the id is new
    have hnull := Json.isNull_iff.mp (hC.1.2 fl hget hr ho)
    refine .inl ⟨?_, .inl ?_⟩
    · rw [h, comments, hnull, Json.child_null]
    · unfold Request.creates at hr
      split at hr
      · rename_i hrequest
        rw [hrequest]
        rfl
      · cases hr
  | deleted hr => exact absurd hr hdelete

/-- An id that moves from the waiting to the stored ones stays in use once. -/
theorem perm_moved {α : Type} {stored stored' l₁ l₂ : List α} {x : α}
    (h : stored'.Perm (x :: stored)) :
    (stored' ++ (l₁ ++ l₂)).Perm (stored ++ (l₁ ++ x :: l₂)) := by
  rw [← List.append_assoc stored]
  refine (h.append_right _).trans (List.Perm.trans ?_ List.perm_middle.symm)
  rw [List.cons_append, List.append_assoc]

/-- What the storage of a comment adds to the stored uuids. -/
theorem storedUUIDs_perm {db db' : Value} {m : String} {c : NewComment}
    (h : (comments db' m).entries.Perm (c.entry :: (comments db m).entries)) :
    (storedUUIDs db' m).Perm (c.uuid :: storedUUIDs db m) := by
  refine (h.filterMap _).trans (.of_eq (List.filterMap_cons_some ?_))
  simp [NewComment.entry, NewComment.node, Node.asDictionary, Dictionary.string, Entries.find,
    Node.asString]

/-- Requests that cease to wait free their ids. -/
theorem CommentsApart.thin {m : String} {w w' : World} (h : CommentsApart m w)
    (hcomments : comments w'.server.database m = comments w.server.database m)
    (hwaiting : (w'.waiting (Request.newComment m)).Sublist (w.waiting (Request.newComment m))) :
    CommentsApart m w' := by
  constructor
  · refine List.Nodup.sublist ?_ h.keys
    rw [commentKeys, hcomments]
    exact (List.Sublist.refl _).append (hwaiting.map _)
  · refine List.Nodup.sublist ?_ h.uuids
    rw [commentUUIDs, storedUUIDs, hcomments]
    exact (List.Sublist.refl _).append (hwaiting.map _)

/-- A fresh comment comes to wait. -/
theorem CommentsApart.call {m : String} {w w' : World} {c : NewComment} (h : CommentsApart m w)
    (hserver : w'.server = w.server)
    (hwaiting : w'.waiting (Request.newComment m) = w.waiting (Request.newComment m) ++ [c])
    (hkey : c.key ∉ commentKeys m w) (huuid : c.uuid ∉ commentUUIDs m w) :
    CommentsApart m w' := by
  constructor
  · rw [commentKeys, hserver, hwaiting, List.map_append, ← List.append_assoc]
    apply (List.perm_append_singleton _ _).nodup_iff.mpr
    exact List.nodup_cons.mpr ⟨hkey, h.keys⟩
  · rw [commentUUIDs, hserver, hwaiting, List.map_append, ← List.append_assoc]
    apply (List.perm_append_singleton _ _).nodup_iff.mpr
    exact List.nodup_cons.mpr ⟨huuid, h.uuids⟩

/-- A comment that waits is stored: its entry is new, and the ids in use are the same. -/
theorem CommentsApart.store {m : String} {w w' : World} {c : NewComment} {l₁ l₂ : List NewComment}
    (h : CommentsApart m w)
    (hbefore : w.waiting (Request.newComment m) = l₁ ++ c :: l₂)
    (hafter : w'.waiting (Request.newComment m) = l₁ ++ l₂)
    (hadded : comments w'.server.database m =
      (comments w.server.database m).setChild c.key c.value) :
    CommentsApart m w' ∧
      (comments w'.server.database m).entries.Perm
        (c.entry :: (comments w.server.database m).entries) := by
  have hkeys := h.keys
  have huuids := h.uuids
  rw [commentKeys, hbefore, List.map_append, List.map_cons] at hkeys
  rw [commentUUIDs, hbefore, List.map_append, List.map_cons] at huuids
  have hnew : c.key ∉ (comments w.server.database m).keys := by
    intro hmem
    exact List.disjoint_of_nodup_append hkeys hmem (by simp)
  have hentries : (comments w'.server.database m).entries.Perm
      (c.entry :: (comments w.server.database m).entries) := by
    rw [hadded]
    exact Json.entries_setChild_perm hnew c.root_value
  refine ⟨⟨?_, ?_⟩, hentries⟩
  · rw [commentKeys, hafter, List.map_append]
    exact (perm_moved (hentries.map Prod.fst)).nodup_iff.mpr hkeys
  · rw [commentUUIDs, hafter, List.map_append]
    exact (perm_moved (storedUUIDs_perm hentries)).nodup_iff.mpr huuids

/-- One step keeps the keys and the uuids apart, and stores what it acknowledges. -/
theorem comments_of_step {m : String} {w w' : World} {l : Label} (hapart : CommentsApart m w)
    (hsent : Sent w) (hdelete : ∀ fl ∈ w.flights, fl.request.deletes ≠ some m)
    (hC : CommentsKept m w l) (hstep : App.resolvingService.step w l = some w')
    (acks : List NewComment) :
    CommentsApart m w' ∧ ∃ new, acknowledgedComments m acks w l = acks ++ new ∧
      (comments w'.server.database m).entries.Perm
        ((comments w.server.database m).entries ++ new.map NewComment.entry) := by
  have hquiet : w'.server = w.server → (∀ n o, l ≠ .serve n o) →
      ∃ new, acknowledgedComments m acks w l = acks ++ new ∧
        (comments w'.server.database m).entries.Perm
          ((comments w.server.database m).entries ++ new.map NewComment.entry) := by
    intro hserver hl
    refine ⟨[], ?_, by rw [hserver]; simp⟩
    unfold acknowledgedComments served
    split
    · exact absurd rfl (hl _ _)
    · exact (List.append_nil _).symm
  cases waited_of_step (P := App.resolvingService) hstep (Request.newComment m) with
  | @called i op c rs hcall hserver hwaiting =>
    refine ⟨?_, hquiet hserver (by simp)⟩
    rcases filterMap_called (toOption_eq_some.mp hcall) m with hnone | ⟨comment, hop, hnew⟩
    · rw [hnone, List.append_nil] at hwaiting
      exact hapart.thin (by rw [hserver]) (by rw [hwaiting])
    · rw [hnew] at hwaiting
      obtain ⟨hkey, huuid⟩ := hC.1.1.2 comment hop
      exact hapart.call hserver hwaiting hkey huuid
  | @served n o fl l₁ l₂ hget hserver hbefore hafter =>
    have hfl : fl ∈ w.flights := List.mem_of_getElem? hget
    obtain ⟨q, hq⟩ := hsent fl hfl
    have hacks : acknowledgedComments m acks w (.serve n o) =
        if o.error = none then acks ++ (fl.request.newComment m).toList else acks := by
      simp only [acknowledgedComments, served, hget]
    rw [hacks]
    rcases comments_served hq (hdelete fl hfl) hC hget with ⟨hsame, hfailed⟩ | ⟨c, hr, ho, hadded⟩
    · have hcomments : comments w'.server.database m = comments w.server.database m := by
        rw [hserver]
        exact hsame
      constructor
      · apply hapart.thin hcomments
        rw [hbefore, hafter]
        exact (List.Sublist.refl _).append (List.sublist_append_right _ _)
      · refine ⟨[], ?_, by rw [hcomments]; simp⟩
        rcases hfailed with hnone | hfailed
        · simp [hnone]
        · simp [hfailed]
    · rw [hr] at hbefore
      have hstore := hapart.store hbefore hafter (by rw [hserver]; exact hadded)
      refine ⟨hstore.1, [c], by simp [hr, ho], ?_⟩
      exact hstore.2.trans (List.perm_append_singleton _ _).symm
  | @completed n d fl a c rs hget hcomplete hserver hwaiting =>
    rw [filterMap_completed (toOption_eq_some.mp hcomplete) m, List.append_nil] at hwaiting
    exact ⟨hapart.thin (by rw [hserver]) (by rw [hwaiting]), hquiet hserver (by simp)⟩

/-! ## Whole runs -/

/-- The invariant: all comments, stored or on their way, have different keys and uuids. -/
theorem commentsApart_of_reaches {m : String} {w₀ w : World} (hflights : w₀.flights = [])
    (hdistinct : (storedUUIDs w₀.server.database m).Nodup)
    (hrun : Reaches App.resolvingService.step (CommentsKept m) w₀ w) : CommentsApart m w := by
  have hwaiting : w₀.waiting (Request.newComment m) = [] := by
    rw [World.waiting, hflights]
    rfl
  refine hrun.invariant (I := CommentsApart m) ⟨?_, ?_⟩ ?_
  · rw [commentKeys, hwaiting, List.map_nil, List.append_nil]
    exact (comments w₀.server.database m).keys_nodup
  · rw [commentUUIDs, hwaiting, List.map_nil, List.append_nil]
    exact hdistinct
  · intro w l w' hreach hapart hC hstep
    have hsent := sent_of_quiet _ hflights hreach
    have hdelete := not_deletes_of_reaches hflights hreach
    exact (comments_of_step hapart hsent hdelete hC hstep []).1

/-- The entries at one moment are those at an earlier one and what has been acknowledged in
between. -/
theorem entries_of_reaches {m : String} {w₀ w₁ w₂ : World} {acks : List NewComment}
    (hflights : w₀.flights = []) (hdistinct : (storedUUIDs w₀.server.database m).Nodup)
    (h₁ : Reaches App.resolvingService.step (CommentsKept m) w₀ w₁)
    (h₂ : Reaches (record App.resolvingService.step (acknowledgedComments m))
      (fun s l => CommentsKept m s.1 l) (w₁, []) (w₂, acks)) :
    (comments w₂.server.database m).entries.Perm
      ((comments w₁.server.database m).entries ++ acks.map NewComment.entry) := by
  refine h₂.invariant (I := fun s => (comments s.1.server.database m).entries.Perm
    ((comments w₁.server.database m).entries ++ s.2.map NewComment.entry)) ?_ ?_
  · rw [List.map_nil, List.append_nil]
  · intro s l s' hreach hperm hC hstep
    obtain ⟨hstep, hacks⟩ := record_eq_some.mp hstep
    have hreach₀ : Reaches App.resolvingService.step (CommentsKept m) w₀ s.1 :=
      Relation.ReflTransGen.trans h₁ (hreach.of_record fun _ _ hl => hl)
    obtain ⟨-, new, hnew, hentries⟩ := comments_of_step
      (commentsApart_of_reaches hflights hdistinct hreach₀) (sent_of_quiet _ hflights hreach₀)
      (not_deletes_of_reaches hflights hreach₀) hC hstep s.2
    rw [hacks, hnew, List.map_append, ← List.append_assoc]
    exact hentries.trans (hperm.append_right _)

/-- A loop that did not fail has dropped nothing. -/
theorem filterMap_of_mapM {α β : Type} {f : α → Option β} {xs : List α} {ys : List β}
    (h : xs.mapM f = some ys) : xs.filterMap f = ys := by
  induction xs generalizing ys with
  | nil =>
    simp only [List.mapM_nil] at h
    cases h
    rfl
  | cons x xs ih =>
    simp only [List.mapM_cons, Option.bind_eq_bind, Option.bind_eq_some_iff, Option.pure_def] at h
    obtain ⟨y, hy, ys', hys', ⟨⟩⟩ := h
    rw [List.filterMap_cons_some hy, ih hys']

/-- The decoded comments have the stored uuids, or there are none because a child is no object. -/
theorem uuids_of_decoded {doc : Value} {d : Dictionary} (hd : doc.asDictionary = some d) :
    (d.nested "Comments").map (fun dic => Dictionary.string dic.2 "uuid") =
        (doc.child "Comments").entries.filterMap (fun e =>
          (Node.asDictionary e.2).map fun d => Dictionary.string d "uuid") ∨
      d.nested "Comments" = [] := by
  unfold Dictionary.nested
  rw [find_of_asDictionary hd, Json.entries]
  cases hchild : (doc.child "Comments").root with
  | none => exact .inr rfl
  | some t =>
    cases t with
    | leaf s => exact .inr rfl
    | object es =>
      rw [Option.bind_some]
      cases hmap : Node.asNested (.object es) with
      | none => exact .inr rfl
      | some ys =>
        left
        rw [Option.getD_some, ← filterMap_of_mapM hmap, List.map_filterMap]
        refine List.filterMap_congr fun e _ => ?_
        rw [Option.map_map]
        rfl

/-- The decoded comments have different uuids if the stored ones have. -/
theorem nodup_decoded_uuids {db : Value} {m : String} (h : (storedUUIDs db m).Nodup)
    {d : Dictionary} (hd : (matchNode db m).asDictionary = some d) (order : DictOrder) :
    (((MatchsModel.init order d).comments.getD []).map CommentsModel.uuid).Nodup := by
  have hperm := order.perm "Comments" (d.nested "Comments")
  have huuids : ((d.nested "Comments").map fun dic => Dictionary.string dic.2 "uuid").Nodup := by
    rcases uuids_of_decoded hd with hsame | hnil
    · rw [hsame]
      exact h
    · rw [hnil]
      exact List.nodup_nil
  show ((List.map _ _).map CommentsModel.uuid).Nodup
  rw [List.map_map, (hperm.map _).nodup_iff]
  have hsome := huuids.map (Option.some_injective String)
  rw [List.map_map] at hsome
  exact hsome

/-- From any database in which the comments of `m` have different uuids, in any interleaving of any
operations of any clients except deletions of `m`, with fresh generated ids, and without requests
that name a match by an id with a slash: between any two moments the comments stored under `m` stay
as they are, each acknowledged `addComment` has added exactly its own comment and nothing else has
been added, and the decoded comments have different uuids. -/
theorem comments_never_lost {m : String} {w₀ w₁ w₂ : World} {acks : List NewComment}
    (hflights : w₀.flights = []) (hdistinct : (storedUUIDs w₀.server.database m).Nodup)
    (h₁ : Reaches App.resolvingService.step (CommentsKept m) w₀ w₁)
    (h₂ : Reaches (record App.resolvingService.step (acknowledgedComments m))
      (fun s l => CommentsKept m s.1 l) (w₁, []) (w₂, acks)) :
    (∀ k, (comments w₁.server.database m).child k ≠ .null →
      (comments w₂.server.database m).child k = (comments w₁.server.database m).child k) ∧
    (comments w₂.server.database m).entries.Perm
      ((comments w₁.server.database m).entries ++ acks.map NewComment.entry) ∧
    ∀ d ∈ (matchNode w₂.server.database m).asDictionary, ∀ order,
      (((MatchsModel.init order d).comments.getD []).map CommentsModel.uuid).Nodup := by
  have hentries := entries_of_reaches hflights hdistinct h₁ h₂
  refine ⟨fun k hk => ?_, hentries, fun d hd order => ?_⟩
  · obtain ⟨t, ht⟩ := Option.ne_none_iff_exists'.mp fun hnone => hk (Json.ext hnone)
    have hmem := hentries.mem_iff.mpr (List.mem_append_left _ (Json.mem_entries_iff.mpr ht))
    apply Json.ext
    rw [ht, Json.mem_entries_iff.mp hmem]
  · have hreach : Reaches App.resolvingService.step (CommentsKept m) w₀ w₂ :=
      Relation.ReflTransGen.trans h₁ (h₂.of_record fun _ _ hl => hl)
    have hapart := commentsApart_of_reaches hflights hdistinct hreach
    exact nodup_decoded_uuids (List.Nodup.of_append_left hapart.uuids) hd order

/-- A client opens the match and sends a comment. -/
def commentOnce (i : ℕ) (comment uuid key : String) : List Label :=
  [.call i (.openDetail "m")] ++ roundTrip 0 {} ++
    [.call i (.addComment comment uuid "date" key)] ++ roundTrip 0 {} ++ roundTrip 0 {}

/-- Two comments of two clients. -/
theorem comments_never_lost_two_comments :
    ∃ w s, exec (restrict App.resolvingService.step (CommentsKept "m"))
        (World.start (sampleMatch []) fun _ => some "n") (commentOnce 0 "hi" "u0" "k0") = some w ∧
      exec (restrict (record App.resolvingService.step (acknowledgedComments "m"))
        fun s l => CommentsKept "m" s.1 l) (w, []) (commentOnce 1 "ho" "u1" "k1") = some s ∧
      s.2 = [⟨"k1", "ho", "u1", "date"⟩] ∧
      (comments s.1.server.database "m").entries.Perm
        ((comments w.server.database "m").entries ++ s.2.map NewComment.entry) := by
  obtain ⟨w, hw, hsecond⟩ := Option.bind_eq_some_iff.mp (show (exec (restrict
    App.resolvingService.step (CommentsKept "m")) (World.start (sampleMatch []) fun _ => some "n")
    (commentOnce 0 "hi" "u0" "k0")).bind (fun w => (exec (restrict (record App.resolvingService.step
      (acknowledgedComments "m")) fun s l => CommentsKept "m" s.1 l) (w, [])
      (commentOnce 1 "ho" "u1" "k1")).map Prod.snd) = some [⟨"k1", "ho", "u1", "date"⟩] from by
    decide +kernel)
  obtain ⟨s, hs, hacks⟩ := Option.map_eq_some_iff.mp hsecond
  have hdistinct : (storedUUIDs (World.start (sampleMatch []) fun _ => some "n").server.database
    "m").Nodup := by decide +kernel
  exact ⟨w, s, hw, hs, hacks, (comments_never_lost rfl hdistinct (reaches_of_exec hw)
    (reaches_of_exec hs)).2.1⟩

/-- The match `m` with one comment, beside a document whose `matchID` leads to the comments. -/
def slashedMatch : Firebase where
  database :=
    ((sampleMatch []).database.set ["Matchs", "m", "Comments", "k0"]
      (.object (MatchsViewModel.commentParams "hi" "u0" "date"))).set ["Matchs", "x"]
        (.object (CreateMatchViewModel.matchParams "m/Comments" "message" "area" 0 1))
  accounts := []

/-- A client lists the matches and deletes the one beside `m` by the id on its card. -/
def deleteListed : List Label :=
  [.call 0 .getAllMatchs] ++ roundTrip 0 {} ++ [.call 0 (.deleteMatches "m/Comments"), .serve 0 {}]

/-- The match with the id `m/Comments` is deleted, and the comments of `m` go with it. -/
theorem slashed_match_loses_comments :
    (storedUUIDs slashedMatch.database "m").Nodup ∧
      (comments slashedMatch.database "m").keys = ["k0"] ∧
      ∃ w, exec (restrict App.resolvingService.step (CommentsFresh "m"))
          (World.start slashedMatch fun _ => some "n") deleteListed = some w ∧
        some "m/Comments" ∈ (w.clients 0).matchs.matchsModelList.map MatchsModel.matchID ∧
        (comments w.server.database "m").keys = [] := by
  obtain ⟨w, hw, hend⟩ := Option.map_eq_some_iff.mp (show (exec (restrict
    App.resolvingService.step (CommentsFresh "m")) (World.start slashedMatch fun _ => some "n")
    deleteListed).map (fun w => ((w.clients 0).matchs.matchsModelList.map MatchsModel.matchID,
      (comments w.server.database "m").keys)) = some ([some "m", some "m/Comments"], [])
    from by decide +kernel)
  obtain ⟨hlist, hlost⟩ := Prod.mk.inj hend
  exact ⟨by decide +kernel, by decide +kernel, w, hw, by rw [hlist]; simp, hlost⟩

end TifaSoccer
