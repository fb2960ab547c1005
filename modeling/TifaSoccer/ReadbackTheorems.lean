import TifaSoccer.DocumentTheorems
import TifaSoccer.OperationTheorems
import TifaSoccer.RefreshTheorems

/-!
# Reading back what an operation wrote

Every operation on a match ends in a fetch: those on the list load all matches again, those on
the detail of a match load that match. When nobody interferes and nothing fails, the client ends
with the decoding of what the database ends with (`read_your_writes`).
-/

namespace TifaSoccer

open Async Run

/-! ## Databases the app has written -/

/-- A database whose matches were made by `createMatch` and changed by the app only. -/
structure AppDatabase (db : Value) : Prop where
  whole : DocumentsWhole db
  named : ∀ m, SlotsNamed db m
  unnamed : ∀ m, slot db m "" = .null

/-- Every database the app reaches without matches that were brought back by a write. -/
theorem appDatabase_of_reaches {C : World → Label → Prop} {server : Firebase}
    {sessions : ℕ → Option String} {w : World} (h₀ : server.database.child "Matchs" = .null)
    (hrun : Reaches App.step C (World.start server sessions) w)
    (hwhole : DocumentsWhole w.server.database) : AppDatabase w.server.database := by
  have hslot : ∀ m k, slot server.database m k = .null := by
    intro m k
    rw [slot, positions, matchNode, h₀]
    rfl
  refine ⟨hwhole, fun m => ?_, fun m => slot_unnamed_of_reaches m (hslot m "") hrun⟩
  exact slotsNamed_of_reaches (fun k hk => absurd (hslot m k) hk) hrun

/-- No match is a leaf. -/
def MatchsBranch (db : Value) : Prop := ∀ m, (matchNode db m).isLeaf = false

/-- What is decoded as a dictionary is no leaf. -/
theorem isLeaf_of_asDictionary {v : Value} {d : Dictionary} (h : v.asDictionary = some d) :
    v.isLeaf = false := by
  rw [Json.isLeaf, asDictionary_eq_some.mp h]

/-- In such a database the matches are objects. -/
theorem AppDatabase.branch {db : Value} (h : AppDatabase db) : MatchsBranch db := by
  intro m
  by_cases hnull : matchNode db m = .null
  · rw [hnull]
    rfl
  · have hfield := (h.whole m hnull).2
    have hchild : (matchNode db m).child "matchID" ≠ .null := by
      intro hchild
      rw [Value.field, hchild] at hfield
      cases hfield
    obtain ⟨d, hd⟩ := asDictionary_of_child hchild
    exact isLeaf_of_asDictionary hd

/-- A write below a match, or the removal of one, makes no leaf. -/
theorem matchsBranch_set {db v : Value} {m : String} {p : List String} (h : MatchsBranch db)
    (hp : p ≠ [] ∨ v = .null) : MatchsBranch (db.set ("Matchs" :: m :: p) v) := by
  intro m'
  rw [matchNode_set_match]
  split_ifs with hm
  · rcases hp with hp | rfl
    · exact Json.isLeaf_set (h m') hp
    · cases p with
      | nil => rfl
      | cons k p => exact Json.isLeaf_set (h m') (by simp)
  · exact h m'

/-- Children that are no leaves are objects. -/
theorem allObjects_of_isLeaf {v : Value} (h : ∀ k, (v.child k).isLeaf = false) : AllObjects v := by
  rintro ⟨k, t⟩ he
  have hroot := Json.mem_entries_iff.mp he
  have hleaf := h k
  rw [Json.isLeaf, hroot] at hleaf
  cases t with
  | leaf _ => cases hleaf
  | object es => rfl

/-- The list after a reload decodes the matches the database has, in key order. -/
theorem forall₂_relisted {db : Value} (h : MatchsBranch db) (self : MatchsViewModel)
    (orders : ℕ → DictOrder) :
    List.Forall₂ DecodesMatch (db.child "Matchs").entries
      (self.relisted orders db).matchsModelList := by
  obtain ⟨xs, hxs, hdecodes⟩ := matchsModelList_appendChildren orders
    { self with isLoad := true, matchsModelList := [] } (allObjects_of_isLeaf h)
  have hlist : (self.relisted orders db).matchsModelList = xs := hxs
  rw [hlist]
  exact hdecodes

/-! ## Operations on the list -/

/-- The calls on the list that write: ids that make a path, and a roster that lets a join in. -/
inductive ListWrite (w : World) (i : ℕ) : Op → Prop
  | join {m u : String} {user : UserModel} (hm : m ≠ "") (hu : u ≠ "") (huuid : user.uuid = some u)
      (hcount : (roster w.server.database m).childrenCount ≠ 14) :
      ListWrite w i (.joinMatches m user)
  | leave {m u : String} (hm : m ≠ "") (hu : u ≠ "")
      (huser : (w.clients i).currentUser = some u) : ListWrite w i (.leaveMatches m)
  | delete {m : String} (hm : m ≠ "") : ListWrite w i (.deleteMatches m)

/-- The list of the client decodes all matches of the database. -/
def ListsMatchs (i : ℕ) (w : World) : Prop :=
  List.Forall₂ DecodesMatch (w.server.database.child "Matchs").entries
    (w.clients i).matchs.matchsModelList

/-- The list fetched after a write shows the database after the write. -/
theorem listsMatchs_after {db : Value} (h : MatchsBranch db) (w : World) (i : ℕ)
    (orders : ℕ → DictOrder) :
    ListsMatchs i (w.after i db ((w.clients i).matchs.relisted orders db)) := by
  unfold ListsMatchs
  rw [after_database, after_client]
  exact forall₂_relisted h _ orders

/-- Every write of the list is read back. -/
theorem listWrite_reads_back {w : World} {i : ℕ} {op : Op} (hdb : AppDatabase w.server.database)
    (hop : ListWrite w i op) :
    EndsIn App.service Outcome.succeeds i [op] w (ListsMatchs i) := by
  rw [endsIn_singleton]
  cases hop with
  | join hm hu huuid hcount =>
    simp only [join_alone hm hu huuid]
    refine ⟨⟨_, .inr ⟨hcount, fun _ => .byKey, rfl⟩⟩, ?_⟩
    rintro w' (⟨hfull, -⟩ | ⟨-, orders, rfl⟩)
    · exact absurd hfull hcount
    · exact listsMatchs_after (matchsBranch_set hdb.branch (.inl (by simp))) w i orders
  | @leave m u hm hu huser =>
    have hleft : MatchsBranch (leftRoster w.server.database m u) :=
      matchsBranch_set hdb.branch (.inr rfl)
    refine ⟨(leave_alone_of_named (hdb.named m) (hdb.unnamed m) rfl hm hu huser).2, ?_⟩
    simp only [leave_alone hm hu huser]
    rintro w' ⟨order, orders, ⟨-, rfl⟩ | ⟨p, -, -, rfl⟩⟩
    · exact listsMatchs_after hleft w i orders
    · exact listsMatchs_after (matchsBranch_set hleft (.inr rfl)) w i orders
  | delete hm =>
    simp only [delete_alone hm]
    refine ⟨⟨_, fun _ => .byKey, rfl⟩, ?_⟩
    rintro w' ⟨orders, rfl⟩
    exact listsMatchs_after (matchsBranch_set hdb.branch (.inr rfl)) w i orders

/-! ## Operations on the detail of a match -/

/-- The calls on the detail of `m` that write. -/
inductive DetailWrite (w : World) (i : ℕ) (m : String) : Op → Prop
  | assign {k : String} (hk : k ≠ "") (player : UserModel) :
      DetailWrite w i m (.setPlayerPositionWithMatch m k player)
  | unassign {k : String} (hk : k ≠ "") : DetailWrite w i m (.deletePlayerPositionWithMatch m k)
  | planning {flag : Bool}
      (hflag : (w.clients i).matchs.selectedMatch.isPlanningComplete = some flag) :
      DetailWrite w i m (.setIsPlanningCompleteForMatch m)
  | comment {comment uuid date key : String} (hkey : key ≠ "")
      (hselected : (w.clients i).matchs.selectedMatch.matchID = some m) :
      DetailWrite w i m (.addComment comment uuid date key)

/-- The selected match decodes the document, and the unplaced players are computed from it. -/
def ShowsMatch (c : Client) (doc : Value) : Prop :=
  UnselectedExact c ∧ ∃ order d, doc.asDictionary = some d ∧
    c.matchs.selectedMatch = MatchsModel.init order d

/-- Nothing was written, since there is no such match. -/
def NothingWritten (m : String) (w w' : World) : Prop :=
  matchNode w.server.database m = .null ∧ w'.server.database = w.server.database

/-- The match fetched after a write is shown. -/
theorem showsMatch_reselected {doc : Value} {d : Dictionary} (hd : doc.asDictionary = some d)
    (c : Client) (order : DictOrder) :
    ShowsMatch { c with matchs := c.matchs.reselected order doc } doc := by
  have hvm : c.matchs.reselected order doc =
      { c.matchs.selectMatch (MatchsModel.init order d) with isLoad := false } := by
    simp only [MatchsViewModel.reselected, MatchsViewModel.getMatchWithMatchIDCompletion,
      Answer.value, hd]
    rfl
  refine ⟨?_, order, d, hd, ?_⟩
  · unfold UnselectedExact
    rw [hvm]
    exact selectMatch_unselectedPlayer c.matchs _
  · rw [hvm]
    rfl

/-- There is nothing below nothing. -/
theorem get_null (p : List String) : (Json.null : Value).get p = .null := by
  induction p with
  | nil => rfl
  | cons k p ih => exact ih

/-- A value that has something below it is an object. -/
theorem asDictionary_of_get {v : Value} {k : String} {p : List String}
    (h : v.get (k :: p) ≠ .null) : ∃ d, v.asDictionary = some d := by
  refine asDictionary_of_child (k := k) fun hnull => h ?_
  rw [Json.get, hnull, get_null]

/-- The document after one of the four writes is an object, unless nothing was written. -/
theorem asDictionary_written {w : World} {m k : String} {p : List String} {v : Value}
    (hdb : AppDatabase w.server.database) (hk : k ≠ "matchID") :
    (∃ d, Value.asDictionary ((matchNode w.server.database m).set (k :: p) v) = some d) ∨
      matchNode w.server.database m = .null ∧
        w.server.database.set ("Matchs" :: m :: k :: p) v = w.server.database := by
  by_cases hv : v = .null
  · subst hv
    by_cases hnull : matchNode w.server.database m = .null
    · -- there is nothing to remove
      refine .inr ⟨hnull, ?_⟩
      have hget : w.server.database.get ("Matchs" :: m :: k :: p) = .null := by
        show (matchNode w.server.database m).get (k :: p) = .null
        rw [hnull, get_null]
      rw [← hget, Json.set_get_self]
    · -- the id of the match stays
      refine .inl (asDictionary_of_child (k := "matchID") ?_)
      rw [Json.set_cons, Json.child_setChild, if_neg hk.symm]
      intro hchild
      have hfield := (hdb.whole m hnull).2
      rw [Value.field, hchild] at hfield
      cases hfield
  · refine .inl (asDictionary_of_get (k := k) (p := p) ?_)
    rw [Json.get_set_self]
    exact hv

/-- Every write of the detail screen is read back. -/
theorem detailWrite_reads_back {w : World} {i : ℕ} {m : String} {op : Op}
    (hdb : AppDatabase w.server.database) (hm : m ≠ "") (hop : DetailWrite w i m op) :
    EndsIn App.service Outcome.succeeds i [op] w fun w' =>
      ShowsMatch (w'.clients i) (matchNode w'.server.database m) ∨ NothingWritten m w w' := by
  -- each operation writes below one field of the match and selects what is there then
  have hshow : ∀ {k : String} {p : List String} {v : Value}, k ≠ "matchID" →
      (∀ w', RunsAlone App.service Outcome.succeeds i op w w' ↔ ∃ order,
        w' = w.after i (w.server.database.set ("Matchs" :: m :: k :: p) v)
          ((w.clients i).matchs.reselected order
            ((matchNode w.server.database m).set (k :: p) v))) →
      EndsIn App.service Outcome.succeeds i [op] w fun w' =>
        ShowsMatch (w'.clients i) (matchNode w'.server.database m) ∨ NothingWritten m w w' := by
    intro k p v hk hrun
    rw [endsIn_singleton]
    simp only [hrun]
    refine ⟨⟨_, .byKey, rfl⟩, ?_⟩
    rintro w' ⟨order, rfl⟩
    rcases asDictionary_written (p := p) hdb hk with ⟨d, hd⟩ | ⟨hnull, hsame⟩
    · left
      rw [after_database, after_client, matchNode_set_match, if_pos rfl]
      exact showsMatch_reselected hd _ order
    · exact .inr ⟨hnull, hsame⟩
  cases hop with
  | assign hk player => exact hshow (by decide) fun w' => assign_alone hm hk player
  | unassign hk => exact hshow (by decide) fun w' => unassign_alone hm hk
  | planning hflag => exact hshow (by decide) fun w' => planning_alone hm hflag
  | comment hkey hselected =>
    exact hshow (by decide) fun w' => comment_alone hm hkey hselected

/-- From every database whose matches were made by `createMatch` and changed by the app only, and
whatever the client has cached: an operation on the list that writes comes to an end, when it runs
alone and without failures, and then the list has the decoding of every match of the database in
key order; an operation on the detail of `m` comes to an end, and then the selected match is the
decoding of `Matchs/m` with the unplaced players computed from it. Only where there is no such
match, and the operation has written nothing, does the one selected before stay. -/
theorem read_your_writes {w : World} {i : ℕ} (hdb : AppDatabase w.server.database) :
    (∀ op, ListWrite w i op →
      EndsIn App.service Outcome.succeeds i [op] w fun w' =>
        List.Forall₂ DecodesMatch (w'.server.database.child "Matchs").entries
          (w'.clients i).matchs.matchsModelList) ∧
    ∀ m op, m ≠ "" → DetailWrite w i m op →
      EndsIn App.service Outcome.succeeds i [op] w fun w' =>
        ShowsMatch (w'.clients i) (matchNode w'.server.database m) ∨ NothingWritten m w w' :=
  ⟨fun _ hop => listWrite_reads_back hdb hop, fun _ _ hm hop => detailWrite_reads_back hdb hm hop⟩

/-- An admin, who has the new match on his screen, puts a player on its pitch. -/
theorem read_your_writes_assigned :
    ∃ w, exec (restrict App.step (OnServe FillsExisting)) (World.start ⟨.null, []⟩ fun _ => none)
        ([.call 0 (.createMatch "m" "message" "area" 0 1)] ++ roundTrip 0 {}) = some w ∧
      EndsIn App.service Outcome.succeeds 0
        [.setPlayerPositionWithMatch "m" "A0" (samplePlayer "n")] w fun w' =>
          ShowsMatch (w'.clients 0) (matchNode w'.server.database "m") := by
  obtain ⟨w, hw, hend⟩ := Option.map_eq_some_iff.mp (show (exec (restrict App.step
    (OnServe FillsExisting)) (World.start ⟨.null, []⟩ fun _ => none)
    ([.call 0 (.createMatch "m" "message" "area" 0 1)] ++ roundTrip 0 {})).map
    (fun w => (matchNode w.server.database "m").isNull) = some false from by decide +kernel)
  have hrun := reaches_of_exec hw
  have hdb : AppDatabase w.server.database := appDatabase_of_reaches rfl hrun
    (documentsWhole_of_reaches rfl (fun _ _ h => h) hrun)
  have hends := (read_your_writes (i := 0) hdb).2 "m" _ (by decide)
    (.assign (k := "A0") (by decide) (samplePlayer "n"))
  refine ⟨w, hw, hends.1, fun w' hw' => (hends.2 w' hw').resolve_right ?_⟩
  rintro ⟨hnull, -⟩
  rw [hnull] at hend
  cases hend

end TifaSoccer
