import TifaSoccer.ClientTheorems
import TifaSoccer.DecodeTheorems

/-!
# Match documents

`createMatch` writes a whole document and `deleteMatches` removes it. Joins, assignments,
planning toggles and comments write below a match without asking whether it is still there, and
Firebase then makes a document of what they write. Documents stay whole, and deletions final,
along runs in which these writes are only applied to matches that exist.
-/

namespace TifaSoccer

open Async Run

/-! ## The effect of a server step on a document -/

/-- The match a request creates. -/
def Request.creates : Request → Option String
  | .createMatch (.createMatch m _ _ _ _) => some m
  | _ => none

/-- The match a request deletes. -/
def Request.deletes : Request → Option String
  | .matchs (.deleteMatches m) => some m
  | _ => none

/-- The match a request writes something into. -/
def Request.fills : Request → Option String
  | .matchs (.joinMatchesWrite m _ _) => some m
  | .matchs (.setPlayerPositionWithMatch m _ _) => some m
  | .matchs (.setIsPlanningCompleteForMatch m _) => some m
  | .matchs (.addComment m _ _ _ _) => some m
  | _ => none

/-- All that a server step can do to the document of `m`. -/
inductive DocumentStep (m : String) (r : Request) (o : Outcome) (doc doc' : Value) : Prop
  | unchanged (h : doc' = doc)
  | created (hr : r.creates = some m) (ho : o.error = none) (hm : m ≠ "")
      (h : doc'.field "matchID" = some m)
  | deleted (h : doc' = .null)
  | filled (hr : r.fills = some m) (ho : o.error = none)
      (h : doc'.field "matchID" = doc.field "matchID")
  /-- something inside the match is removed, which makes no document -/
  | thinned (h : doc'.field "matchID" = doc.field "matchID") (hnull : doc = .null → doc' = .null)

/-- Every request does to a document what `DocumentStep` says. -/
theorem documentStep_serve (s : Firebase) (r : Request) (o : Outcome) (m : String) :
    DocumentStep m r o (matchNode s.database m) (matchNode (r.serve s o).1.database m) := by
  rcases matchNode_serve s r o m with h | ⟨p, v, ho, hw, hpath, h⟩
  · exact .unchanged h
  · rw [h]
    cases hw with
    | create adminMessage footballArea startDate finishDate =>
      refine .created rfl ho hpath.1 ?_
      simp [Value.field, Json.object, CreateMatchViewModel.matchParams, Json.leaf, Node.asString]
    | delete => exact .deleted rfl
    | join u user => exact .filled rfl ho (by simp [Value.field])
    | assign k player => exact .filled rfl ho (by simp [Value.field])
    | planning b => exact .filled rfl ho (by simp [Value.field])
    | comment key comment uuid date => exact .filled rfl ho (by simp [Value.field])
    | leave u => exact .thinned (by simp [Value.field]) (by intro hnull; simp [hnull])
    | clearSlot k => exact .thinned (by simp [Value.field]) (by intro hnull; simp [hnull])
    | unassign k => exact .thinned (by simp [Value.field]) (by intro hnull; simp [hnull])

/-! ## Whole documents -/

/-- Every document carries its own key as `matchID`. -/
def DocumentsWhole (db : Value) : Prop :=
  ∀ m, matchNode db m ≠ .null → m ≠ "" ∧ (matchNode db m).field "matchID" = some m

/-- What writes into a match is applied only while the match exists. -/
def FillsExisting (w : World) (fl : Flight) (o : Outcome) : Prop :=
  ∀ m ∈ fl.request.fills, o.error = none → (matchNode w.server.database m).isNull = false

instance (w : World) (fl : Flight) (o : Outcome) : Decidable (FillsExisting w fl o) :=
  inferInstanceAs (Decidable (∀ m ∈ fl.request.fills, _))

/-- Without matches there is no partial document. -/
theorem documentsWhole_empty {db : Value} (h : db.child "Matchs" = .null) : DocumentsWhole db := by
  intro m hm
  rw [matchNode, h, Json.child_null] at hm
  exact absurd rfl hm

/-- A late write that finds the document there keeps the documents whole. -/
theorem documentsWhole_serve {w : World} {fl : Flight} {o : Outcome}
    (h : DocumentsWhole w.server.database) (hcond : FillsExisting w fl o) :
    DocumentsWhole (fl.request.serve w.server o).1.database := by
  intro m hm
  cases documentStep_serve w.server fl.request o m with
  | unchanged hdoc =>
    rw [hdoc] at hm ⊢
    exact h m hm
  | created _ _ hne hfield => exact ⟨hne, hfield⟩
  | deleted hdoc => exact absurd hdoc hm
  | filled hr ho hfield =>
    have hexists : matchNode w.server.database m ≠ .null := by
      intro hnull
      have := hcond m hr ho
      rw [Json.isNull_iff.mpr hnull] at this
      cases this
    rw [hfield]
    exact h m hexists
  | thinned hfield hnull =>
    rw [hfield]
    exact h m fun hdoc => hm (hnull hdoc)

/-- The documents stay whole along such runs. -/
theorem documentsWhole_of_reaches {C : World → Label → Prop} {server : Firebase}
    {sessions : ℕ → Option String} {w : World} (h₀ : server.database.child "Matchs" = .null)
    (hC : ∀ w l, C w l → OnServe FillsExisting w l)
    (hrun : Reaches App.step C (World.start server sessions) w) :
    DocumentsWhole w.server.database :=
  server_invariant (P := App.service) (I := fun s => DocumentsWhole s.database) hrun
    (documentsWhole_empty h₀) fun _ _ _ _ _ hI hget hcond =>
      documentsWhole_serve hI (hC _ _ hcond _ hget)

/-! ## Final deletions -/

/-- The matches whose deletion has been applied. -/
def deletedMatchs : List String → World → Label → List String :=
  served fun o fl deleted =>
    if o.error = none then fl.request.deletes.toList ++ deleted else deleted

/-- The id of a new match is not that of a deleted one. -/
def FreshIds (deleted : List String) (_ : World) (fl : Flight) (o : Outcome) : Prop :=
  ∀ m ∈ fl.request.creates, o.error = none → m ∉ deleted

instance (deleted : List String) (w : World) (fl : Flight) (o : Outcome) :
    Decidable (FreshIds deleted w fl o) :=
  inferInstanceAs (Decidable (∀ m ∈ fl.request.creates, _))

/-- Nothing but a creation brings a match back. -/
theorem deleted_stays {m : String} {w : World} {fl : Flight} {o : Outcome}
    (hnull : matchNode w.server.database m = .null) (hcond : FillsExisting w fl o)
    (hfresh : fl.request.creates = some m → o.error ≠ none) :
    matchNode (fl.request.serve w.server o).1.database m = .null := by
  cases documentStep_serve w.server fl.request o m with
  | unchanged hdoc => rw [hdoc, hnull]
  | created hr ho _ _ => exact absurd ho (hfresh hr)
  | deleted hdoc => exact hdoc
  | filled hr ho _ =>
    have := hcond m hr ho
    rw [Json.isNull_iff.mpr hnull] at this
    cases this
  | thinned _ hthin => exact hthin hnull

/-- A deletion in flight that does not fail removes the match. -/
theorem matchNode_delete {m : String} {r : Request} {q : Remote} (hr : r.deletes = some m)
    (hq : r.remote = .ok q) (s : Firebase) {o : Outcome} (ho : o.error = none) :
    matchNode (r.serve s o).1.database m = .null := by
  have hr : r = .matchs (.deleteMatches m) := by
    unfold Request.deletes at hr
    split at hr
    · cases hr
      rfl
    · cases hr
  subst hr
  have hw : MatchWrite m (.matchs (.deleteMatches m)) [] .null := .delete
  obtain ⟨hm, hp, -⟩ := hw.remote_eq_ok.mp hq
  rw [matchNode_write hw hm hp s ho, Json.set_nil]

/-- From an empty `Matchs`, along every run in which new ids are fresh and writes into a match
are applied only while it exists, every document carries its own id and a deleted match stays
empty. -/
theorem documents_whole_and_deletions_final {server : Firebase} {sessions : ℕ → Option String}
    {s : World × List String} (h₀ : server.database.child "Matchs" = .null)
    (hrun : Reaches (record App.step deletedMatchs)
      (fun s l => OnServe (FreshIds s.2) s.1 l ∧ OnServe FillsExisting s.1 l)
      (World.start server sessions, []) s) :
    (∀ m, matchNode s.1.server.database m ≠ .null →
      (matchNode s.1.server.database m).field "matchID" = some m) ∧
      ∀ m ∈ s.2, matchNode s.1.server.database m = .null := by
  have hworld : ∀ {s}, Reaches (record App.step deletedMatchs)
      (fun s l => OnServe (FreshIds s.2) s.1 l ∧ OnServe FillsExisting s.1 l)
      (World.start server sessions, []) s →
      Reaches App.step (OnServe FillsExisting) (World.start server sessions) s.1 :=
    fun h => h.of_record fun _ _ h => h.2
  refine ⟨fun m hm => (documentsWhole_of_reaches h₀ (fun _ _ h => h) (hworld hrun) m hm).2, ?_⟩
  refine served_invariant (P := App.service)
    (Q := fun server deleted => ∀ m ∈ deleted, matchNode server.database m = .null) hrun
    (by simp) ?_
  intro s n fl o hreach hQ hget hC m hm
  show matchNode (fl.request.serve s.1.server o).1.database m = .null
  -- a step that fails deletes nothing and brings nothing back
  cases ho : o.error with
  | some e =>
    rw [ho, if_neg (by simp)] at hm
    rw [serve_failed s.1.server fl.request ho]
    exact hQ m hm
  | none =>
    rw [ho, if_pos rfl, List.mem_append, Option.mem_toList] at hm
    rcases hm with hdeletes | hold
    · obtain ⟨q, hq⟩ := sent_of_reaches (hworld hreach) fl (List.mem_of_getElem? hget)
      exact matchNode_delete hdeletes hq s.1.server ho
    · exact deleted_stays (hQ m hold) (hC.2 fl hget)
        fun hcreates _ => hC.1 fl hget m hcreates ho hold

/-- A match is created, joined and deleted, and another one is created. -/
def deletedAndReplaced : List Label :=
  [.call 1 (.createMatch "m" "message" "area" 0 1), .serve 0 {},
    .call 0 (.joinMatches "m" (samplePlayer "n"))] ++ roundTrip 1 {} ++
    [.serve 1 {}, .call 1 (.deleteMatches "m"), .serve 2 {},
      .call 1 (.createMatch "m'" "message" "area" 0 1), .serve 3 {}]

/-- A match is deleted, and another one created. -/
theorem documents_whole_after_replacement :
    ∃ s, exec (restrict (record App.step deletedMatchs)
        (fun s l => OnServe (FreshIds s.2) s.1 l ∧ OnServe FillsExisting s.1 l))
        (World.start ⟨.null, []⟩ fun _ => some "n", []) deletedAndReplaced = some s ∧
      (matchNode s.1.server.database "m'").field "matchID" = some "m'" ∧
      matchNode s.1.server.database "m" = .null := by
  obtain ⟨s, hs, hend⟩ := Option.map_eq_some_iff.mp (show (exec (restrict (record App.step
    deletedMatchs) (fun s l => OnServe (FreshIds s.2) s.1 l ∧ OnServe FillsExisting s.1 l))
    (World.start ⟨.null, []⟩ fun _ => some "n", []) deletedAndReplaced).map
    (fun s => ((matchNode s.1.server.database "m'").isNull, s.2)) = some (false, ["m"])
    from by decide +kernel)
  obtain ⟨hexists, hdeleted⟩ := Prod.mk.inj hend
  obtain ⟨hwhole, hfinal⟩ := documents_whole_and_deletions_final rfl (reaches_of_exec hs)
  refine ⟨s, hs, hwhole "m'" fun hnull => ?_, hfinal "m" (by simp [hdeleted])⟩
  rw [Json.isNull_iff.mpr hnull] at hexists
  cases hexists

/-- A match is deleted between the two requests of a join. -/
def deletedDuringJoin : List Label :=
  [.call 1 (.createMatch "m" "message" "area" 0 1), .serve 0 {},
    .call 0 (.joinMatches "m" (samplePlayer "n"))] ++ roundTrip 1 {} ++
    [.call 1 (.deleteMatches "m"), .serve 2 {}, .serve 1 {}]

/-- The write of the join brings the deleted match back, without its `matchID`. -/
theorem join_revives_deleted_match :
    ∃ s, exec (restrict (record App.step deletedMatchs) (fun s l => OnServe (FreshIds s.2) s.1 l))
        (World.start ⟨.null, []⟩ fun _ => some "n", []) deletedDuringJoin = some s ∧
      "m" ∈ s.2 ∧ matchNode s.1.server.database "m" ≠ .null ∧
      (matchNode s.1.server.database "m").field "matchID" = none := by
  obtain ⟨s, hs, hend⟩ := Option.map_eq_some_iff.mp (show (exec (restrict (record App.step
    deletedMatchs) (fun s l => OnServe (FreshIds s.2) s.1 l))
    (World.start ⟨.null, []⟩ fun _ => some "n", []) deletedDuringJoin).map
    (fun s => (s.2, (matchNode s.1.server.database "m").isNull,
      (matchNode s.1.server.database "m").field "matchID")) = some (["m"], false, none)
    from by decide +kernel)
  simp only [Prod.mk.injEq] at hend
  obtain ⟨hdeleted, hexists, hfield⟩ := hend
  refine ⟨s, hs, by simp [hdeleted], fun hnull => ?_, hfield⟩
  rw [Json.isNull_iff.mpr hnull] at hexists
  cases hexists

end TifaSoccer
