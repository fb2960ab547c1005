import TifaSoccer.Lib.Alone
import TifaSoccer.ClientTheorems
import TifaSoccer.ServerTheorems

/-!
# What an operation does when nobody interferes

One theorem for each operation on a match: where the chain of requests and completions it starts
ends when no other request is served meanwhile and none of its own fails. What is left open is
the order in which dictionaries are iterated. Each theorem is an equivalence, so it says that the
chain ends as well as where.
-/

namespace TifaSoccer

open Async

/-- The request does not fail. -/
def Outcome.succeeds (o : Outcome) : Prop := o.error = none

/-- The world after client `i` has acted: the database, and the view model of the matches. -/
def World.after (w : World) (i : ℕ) (database : Value) (vm : MatchsViewModel) : World :=
  ⟨⟨database, w.server.accounts⟩, Function.update w.clients i { w.clients i with matchs := vm },
    w.flights⟩

/-- The client while the overlay of a call is shown. -/
def Client.loading (c : Client) : Client := { c with matchs := { c.matchs with isLoad := true } }

/-- The view model after the list has been loaded again. -/
def MatchsViewModel.relisted (self : MatchsViewModel) (orders : ℕ → DictOrder) (database : Value) :
    MatchsViewModel :=
  { self with isLoad := true, matchsModelList := [] }.getAllMatchsCompletion orders
    (.snapshot (database.child "Matchs"))

/-- The view model after the match on the screen has been loaded again. -/
def MatchsViewModel.reselected (self : MatchsViewModel) (order : DictOrder) (document : Value) :
    MatchsViewModel :=
  { self with isLoad := true }.getMatchWithMatchIDCompletion order (.snapshot document)

/-! ## Chains -/

/-- No call and no completion of the app issues more than one request. -/
theorem App.sequential : Sequential App.service where
  call h := by
    cases (called_of_call (toOption_eq_some.mp h)).1 <;> simp
  complete h := by
    cases (completed_of_complete (toOption_eq_some.mp h)).1 with
    | base hbase => cases hbase <;> simp
    | matchs hmatchs => cases hmatchs <;> simp
    | _ => simp

section Chains

variable {s s' : Firebase} {c c' : Client} {r : MatchsViewModel.Request} {ref : Ref}

/-- The completion of a request of `MatchsViewModel`. -/
theorem service_complete_matchs {a : Answer} {orders : ℕ → DictOrder} {c₁ : Client}
    {rs : List Request} :
    App.service.complete c (.matchs r) a orders = some (c₁, rs) ↔
      ∃ vm rs', c.matchs.complete orders r a = .ok (vm, rs') ∧ { c with matchs := vm } = c₁ ∧
        rs'.map .matchs = rs := by
  show (c.withMatchs (c.matchs.complete orders r a)).toOption = some (c₁, rs) ↔ _
  simp only [toOption_eq_some, Client.withMatchs, map_eq_ok, Prod.exists, Prod.mk.injEq]

/-- A chain goes on with what the completion of its first request issues. -/
theorem settled_turn {q : Remote} (hr : r.remote = .ok q) {s₁ : Firebase} {a : Answer}
    (hserve : ∀ o : Outcome, o.error = none → s.serve q o = (s₁, a)) :
    Settled App.service Outcome.succeeds s c [.matchs r] s' c' ↔
      ∃ orders vm rs, c.matchs.complete orders r a = .ok (vm, rs) ∧
        Settled App.service Outcome.succeeds s₁ { c with matchs := vm } (rs.map .matchs) s' c' := by
  have hanswer : ∀ o : Outcome, o.succeeds → App.service.serve s (.matchs r) o = (s₁, a) := by
    intro o ho
    show Request.serve s (.matchs r) o = _
    simp only [Request.serve, Request.remote, hr]
    exact hserve o ho
  rw [settled_singleton]
  constructor
  · rintro ⟨o, orders, c₁, rs, ho, hcomplete, hrest⟩
    rw [hanswer o ho] at hcomplete hrest
    obtain ⟨vm, rs', hvm, rfl, rfl⟩ := service_complete_matchs.mp hcomplete
    exact ⟨orders, vm, rs', hvm, hrest⟩
  · rintro ⟨orders, vm, rs, hvm, hrest⟩
    refine ⟨{}, orders, { c with matchs := vm }, rs.map .matchs, rfl, ?_, ?_⟩
    · rw [hanswer {} rfl]
      exact service_complete_matchs.mpr ⟨vm, rs, hvm, rfl, rfl⟩
    · rw [hanswer {} rfl]
      exact hrest

/-- A chain that starts with a read. -/
theorem settled_read (hr : r.remote = .ok (.getData ref)) :
    Settled App.service Outcome.succeeds s c [.matchs r] s' c' ↔
      ∃ orders vm rs, c.matchs.complete orders r (.snapshot (s.database.get ref)) = .ok (vm, rs) ∧
        Settled App.service Outcome.succeeds s { c with matchs := vm } (rs.map .matchs) s' c' :=
  settled_turn hr fun _ ho => s.serve_getData ref ho

/-- A chain that starts with a write. -/
theorem settled_write {v : Value} (hr : r.remote = .ok (.setValue ref v)) :
    Settled App.service Outcome.succeeds s c [.matchs r] s' c' ↔
      ∃ orders vm rs, c.matchs.complete orders r .ok = .ok (vm, rs) ∧
        Settled App.service Outcome.succeeds ⟨s.database.set ref v, s.accounts⟩
          { c with matchs := vm } (rs.map .matchs) s' c' :=
  settled_turn hr fun _ ho => s.serve_setValue ref v ho

/-- The last link of every operation on the list. -/
theorem settled_getAllMatchs :
    Settled App.service Outcome.succeeds s c [.matchs .getAllMatchs] s' c' ↔
      s' = s ∧ ∃ orders, c' =
        { c with
          matchs := c.matchs.getAllMatchsCompletion orders
            (.snapshot (s.database.child "Matchs")) } := by
  have hremote : MatchsViewModel.Request.getAllMatchs.remote = .ok (.getData ["Matchs"]) := rfl
  rw [settled_read hremote]
  constructor
  · rintro ⟨orders, vm, rs, ⟨⟩, hrest⟩
    obtain ⟨rfl, rfl⟩ := settled_nil.mp hrest
    exact ⟨rfl, orders, rfl⟩
  · rintro ⟨rfl, orders, rfl⟩
    exact ⟨orders, _, [], rfl, settled_nil.mpr ⟨rfl, rfl⟩⟩

/-- The last link of every operation on the detail of a match. -/
theorem settled_getMatchWithMatchID {m : String} (hm : m ≠ "") :
    Settled App.service Outcome.succeeds s c [.matchs (.getMatchWithMatchID m)] s' c' ↔
      s' = s ∧ ∃ order, c' =
        { c with
          matchs := c.matchs.getMatchWithMatchIDCompletion order
            (.snapshot (matchNode s.database m)) } := by
  have hremote : (MatchsViewModel.Request.getMatchWithMatchID m).remote =
      .ok (.getData ["Matchs", m]) := MatchRead.detail.remote_eq_ok.mpr ⟨hm, rfl⟩
  rw [settled_read hremote]
  constructor
  · rintro ⟨orders, vm, rs, ⟨⟩, hrest⟩
    obtain ⟨rfl, rfl⟩ := settled_nil.mp hrest
    exact ⟨rfl, orders 0, rfl⟩
  · rintro ⟨rfl, order, rfl⟩
    exact ⟨fun _ => order, _, [], rfl, settled_nil.mpr ⟨rfl, rfl⟩⟩

/-- A write whose completion goes on in the same way in every order. -/
theorem settled_write_then {v : Value} {vm : MatchsViewModel} {rs : List MatchsViewModel.Request}
    (hr : r.remote = .ok (.setValue ref v))
    (hcomplete : ∀ orders, c.matchs.complete orders r .ok = .ok (vm, rs)) :
    Settled App.service Outcome.succeeds s c [.matchs r] s' c' ↔
      Settled App.service Outcome.succeeds ⟨s.database.set ref v, s.accounts⟩
        { c with matchs := vm } (rs.map .matchs) s' c' := by
  rw [settled_write hr]
  constructor
  · rintro ⟨orders, vm', rs', hvm, hrest⟩
    rw [hcomplete] at hvm
    cases hvm
    exact hrest
  · intro hrest
    exact ⟨fun _ => .byKey, vm, rs, hcomplete _, hrest⟩

/-- A request whose path is complete is sent. -/
theorem send_of_remote {q : Remote} (hr : r.remote = .ok q) (self : MatchsViewModel) :
    self.send r = .ok (self, [r]) := by
  simp [MatchsViewModel.send, hr]

/-- The second half of a leave: read the match, and remove the first position it has with the
uuid of the user. -/
theorem settled_isUserInFootballArea {m u : String} (hm : m ≠ "") :
    Settled App.service Outcome.succeeds s c [.matchs (.isUserInFootballArea m u)] s' c' ↔
      ∃ order orders,
        (MatchsViewModel.positionOfUser order u (matchNode s.database m) = none ∧ s' = s ∧
          c' = { c with matchs := c.matchs.relisted orders s.database }) ∨
        ∃ p, MatchsViewModel.positionOfUser order u (matchNode s.database m) = some p ∧
          p.positionForMatch.getD "" ≠ "" ∧
          s' = ⟨s.database.set ["Matchs", m, "Positions", p.positionForMatch.getD ""] .null,
            s.accounts⟩ ∧
          c' = { c with matchs := c.matchs.relisted orders s'.database } := by
  have hread : (MatchsViewModel.Request.isUserInFootballArea m u).remote =
      .ok (.getData ["Matchs", m]) := (MatchRead.area u).remote_eq_ok.mpr ⟨hm, rfl⟩
  have hclear : ∀ {k : String}, k ≠ "" →
      (MatchsViewModel.Request.deletePlayerForFootballArea m k).remote =
        .ok (.setValue ["Matchs", m, "Positions", k] .null) := by
    intro k hk
    exact (MatchWrite.clearSlot k).remote_eq_ok.mpr ⟨hm, by simp [hk.symm], rfl⟩
  have hnode : s.database.get ["Matchs", m] = matchNode s.database m := rfl
  rw [settled_read hread]
  simp only [MatchsViewModel.complete, MatchsViewModel.isUserInFootballAreaCompletion,
    Answer.value, hnode]
  constructor
  · rintro ⟨orders, vm, rs, hvm, hrest⟩
    split at hvm
    · rename_i p hp
      obtain ⟨rfl, rfl, q, hq⟩ := matchs_send_eq_ok hvm
      -- an empty name would have raised
      have hk : p.positionForMatch.getD "" ≠ "" := by
        intro hk
        obtain ⟨-, hpath, -⟩ := (MatchWrite.clearSlot _).remote_eq_ok.mp hq
        exact hpath (by simp [hk])
      rw [List.map_singleton, settled_write_then (hclear hk) fun _ => rfl] at hrest
      obtain ⟨rfl, orders', rfl⟩ := settled_getAllMatchs.mp hrest
      exact ⟨orders 0, orders', .inr ⟨p, hp, hk, rfl, rfl⟩⟩
    · rename_i hnone
      cases hvm
      obtain ⟨rfl, orders', rfl⟩ := settled_getAllMatchs.mp hrest
      exact ⟨orders 0, orders', .inl ⟨hnone, rfl, rfl⟩⟩
  · rintro ⟨order, orders, ⟨hnone, rfl, rfl⟩ | ⟨p, hp, hk, rfl, rfl⟩⟩
    · refine ⟨fun _ => order, _, [.getAllMatchs], by rw [hnone]; rfl, ?_⟩
      exact settled_getAllMatchs.mpr ⟨rfl, orders, rfl⟩
    · refine ⟨fun _ => order, { c.matchs with isLoad := true },
        [.deletePlayerForFootballArea m (p.positionForMatch.getD "")], ?_, ?_⟩
      · rw [hp]
        exact send_of_remote (hclear hk) _
      · rw [List.map_singleton, settled_write_then (hclear hk) fun _ => rfl]
        exact settled_getAllMatchs.mpr ⟨rfl, orders, rfl⟩

end Chains

/-! ## Operations -/

section Operations

variable {w w' : World} {i : ℕ} {m : String}

/-- A call that shows the overlay and sends one request runs as the chain of that request. -/
theorem runsAlone_send {ok : Outcome → Prop} {op : Op} {r : MatchsViewModel.Request} {q : Remote}
    (hcall : (w.clients i).call op = (w.clients i).withMatchs
      ((w.clients i).loading.matchs.send r))
    (hr : r.remote = .ok q) :
    RunsAlone App.service ok i op w w' ↔ ∃ s' c',
      Settled App.service ok w.server (w.clients i).loading [.matchs r] s' c' ∧
        w' = ⟨s', Function.update w.clients i c', w.flights⟩ := by
  have hsent : App.service.call (w.clients i) op =
      some ((w.clients i).loading, [.matchs r]) := by
    show ((w.clients i).call op).toOption = _
    rw [hcall, toOption_eq_some]
    simp [Client.withMatchs, MatchsViewModel.send, hr, Client.loading]
  rw [runsAlone_iff App.sequential]
  constructor
  · rintro ⟨c, rs, s', c', hcall', hsettled, rfl⟩
    rw [hsent] at hcall'
    cases hcall'
    exact ⟨s', c', hsettled, rfl⟩
  · rintro ⟨s', c', hsettled, rfl⟩
    exact ⟨_, _, s', c', hsent, hsettled, rfl⟩

/-- The overlay is gone after the match has been loaded again, whether it was there or not. -/
theorem reselected_of_isLoad (self : MatchsViewModel) (b : Bool) (order : DictOrder) (doc : Value) :
    { self with isLoad := b }.getMatchWithMatchIDCompletion order (.snapshot doc) =
      self.reselected order doc := by
  unfold MatchsViewModel.reselected
  simp only [MatchsViewModel.getMatchWithMatchIDCompletion]
  split <;> rfl

/-- The four operations on the detail of a match: a write below the match, and a reload of it. -/
theorem detail_alone {op : Op} {r : MatchsViewModel.Request} {p : List String} {v : Value}
    {b : Bool} (hw : MatchWrite m (.matchs r) p v) (hm : m ≠ "") (hp : "" ∉ p)
    (hcall : (w.clients i).call op = (w.clients i).withMatchs
      ((w.clients i).loading.matchs.send r))
    (hcomplete : ∀ orders, (w.clients i).loading.matchs.complete orders r .ok =
      .ok ({ (w.clients i).matchs with isLoad := b }, [.getMatchWithMatchID m])) :
    RunsAlone App.service Outcome.succeeds i op w w' ↔ ∃ order,
      w' = w.after i (w.server.database.set ("Matchs" :: m :: p) v)
        ((w.clients i).matchs.reselected order ((matchNode w.server.database m).set p v)) := by
  have hremote : r.remote = .ok (.setValue ("Matchs" :: m :: p) v) :=
    hw.remote_eq_ok.mpr ⟨hm, hp, rfl⟩
  rw [runsAlone_send hcall hremote]
  simp only [settled_write_then hremote hcomplete, List.map_singleton,
    settled_getMatchWithMatchID hm, matchNode_set_match, if_true, reselected_of_isLoad]
  constructor
  · rintro ⟨s', c', ⟨rfl, order, rfl⟩, rfl⟩
    exact ⟨order, rfl⟩
  · rintro ⟨order, rfl⟩
    exact ⟨_, _, ⟨rfl, order, rfl⟩, rfl⟩

/-- The fetch of a match with an id is sent. -/
theorem send_getMatchWithMatchID (hm : m ≠ "") (self : MatchsViewModel) :
    self.send (.getMatchWithMatchID m) = .ok (self, [.getMatchWithMatchID m]) := by
  have hremote : (MatchsViewModel.Request.getMatchWithMatchID m).remote =
      .ok (.getData ["Matchs", m]) := MatchRead.detail.remote_eq_ok.mpr ⟨hm, rfl⟩
  exact send_of_remote hremote self

/-- An assignment alone: the slot is written, and the match fetched again. -/
theorem assign_alone (hm : m ≠ "") {k : String} (hk : k ≠ "") (player : UserModel) :
    RunsAlone App.service Outcome.succeeds i (.setPlayerPositionWithMatch m k player) w w' ↔
      ∃ order, w' = w.after i
        (w.server.database.set ["Matchs", m, "Positions", k]
          (.object (player.castUserPositionModel k).asDictionary))
        ((w.clients i).matchs.reselected order ((matchNode w.server.database m).set
          ["Positions", k] (.object (player.castUserPositionModel k).asDictionary))) := by
  refine detail_alone (b := false) (.assign k player) hm (by simp [hk.symm]) rfl fun orders => ?_
  simp only [MatchsViewModel.complete, MatchsViewModel.refreshThenUnload,
    MatchsViewModel.getMatchWithMatchID, send_getMatchWithMatchID hm]
  rfl

/-- A tap on a slot alone: the slot is emptied, and the match fetched again. -/
theorem unassign_alone (hm : m ≠ "") {k : String} (hk : k ≠ "") :
    RunsAlone App.service Outcome.succeeds i (.deletePlayerPositionWithMatch m k) w w' ↔
      ∃ order, w' = w.after i (w.server.database.set ["Matchs", m, "Positions", k] .null)
        ((w.clients i).matchs.reselected order
          ((matchNode w.server.database m).set ["Positions", k] .null)) := by
  refine detail_alone (b := false) (.unassign k) hm (by simp [hk.symm]) rfl fun orders => ?_
  simp only [MatchsViewModel.complete, MatchsViewModel.refreshThenUnload,
    MatchsViewModel.getMatchWithMatchID, send_getMatchWithMatchID hm]
  rfl

/-- The planning toggle alone: the flag is negated, and the match fetched again. -/
theorem planning_alone (hm : m ≠ "") {flag : Bool}
    (hflag : (w.clients i).matchs.selectedMatch.isPlanningComplete = some flag) :
    RunsAlone App.service Outcome.succeeds i (.setIsPlanningCompleteForMatch m) w w' ↔
      ∃ order, w' = w.after i
        (w.server.database.set ["Matchs", m, "isPlanningComplete"] (.leaf (.bool !flag)))
        ((w.clients i).matchs.reselected order
          ((matchNode w.server.database m).set ["isPlanningComplete"] (.leaf (.bool !flag)))) := by
  refine detail_alone (b := true) (.planning !flag) hm (by simp) ?_ fun orders => ?_
  · simp only [Client.call, MatchsViewModel.setIsPlanningCompleteForMatch, hflag, Client.loading]
  · exact send_getMatchWithMatchID hm _

/-- A comment alone: it is added to the selected match, which is fetched again. -/
theorem comment_alone (hm : m ≠ "") {comment uuid date key : String} (hkey : key ≠ "")
    (hselected : (w.clients i).matchs.selectedMatch.matchID = some m) :
    RunsAlone App.service Outcome.succeeds i (.addComment comment uuid date key) w w' ↔
      ∃ order, w' = w.after i
        (w.server.database.set ["Matchs", m, "Comments", key]
          (.object (MatchsViewModel.commentParams comment uuid date)))
        ((w.clients i).matchs.reselected order ((matchNode w.server.database m).set
          ["Comments", key] (.object (MatchsViewModel.commentParams comment uuid date)))) := by
  refine detail_alone (b := true) (.comment key comment uuid date) hm (by simp [hkey.symm]) ?_
    fun orders => ?_
  · simp only [Client.call, MatchsViewModel.addComment, hselected, Client.loading]
  · exact send_getMatchWithMatchID hm _

/-- The deletion of a match alone: the document is removed, and the list fetched again. -/
theorem delete_alone (hm : m ≠ "") :
    RunsAlone App.service Outcome.succeeds i (.deleteMatches m) w w' ↔ ∃ orders,
      w' = w.after i (w.server.database.set ["Matchs", m] .null)
        ((w.clients i).matchs.relisted orders (w.server.database.set ["Matchs", m] .null)) := by
  have hremote : (MatchsViewModel.Request.deleteMatches m).remote =
      .ok (.setValue ["Matchs", m] .null) := MatchWrite.delete.remote_eq_ok.mpr ⟨hm, by simp, rfl⟩
  rw [runsAlone_send rfl hremote]
  simp only [settled_write_then hremote fun _ => rfl, List.map_singleton, settled_getAllMatchs]
  constructor
  · rintro ⟨s', c', ⟨rfl, orders, rfl⟩, rfl⟩
    exact ⟨orders, rfl⟩
  · rintro ⟨orders, rfl⟩
    exact ⟨_, _, ⟨rfl, orders, rfl⟩, rfl⟩

/-- A join reads the roster; with exactly 14 children it ends there, with any other number it
writes the record. -/
theorem join_alone (hm : m ≠ "") {u : String} (hu : u ≠ "") {user : UserModel}
    (huuid : user.uuid = some u) :
    RunsAlone App.service Outcome.succeeds i (.joinMatches m user) w w' ↔
      ((roster w.server.database m).childrenCount = 14 ∧
        w' = w.after i w.server.database
          ((w.clients i).loading.matchs.alert "Bu maçın kadrosu tamamlandı !")) ∨
      ((roster w.server.database m).childrenCount ≠ 14 ∧ ∃ orders,
        w' = w.after i
          (w.server.database.set ["Matchs", m, "players", u] (.object user.asDictionary))
          ((w.clients i).matchs.relisted orders
            (w.server.database.set ["Matchs", m, "players", u] (.object user.asDictionary)))) := by
  have hread : (MatchsViewModel.Request.joinMatchesRead m u user).remote =
      .ok (.getData ["Matchs", m, "players"]) := (joinMatchesRead_eq_ok m u user).mpr ⟨hm, rfl⟩
  have hwrite : (MatchsViewModel.Request.joinMatchesWrite m u user).remote =
      .ok (.setValue ["Matchs", m, "players", u] (.object user.asDictionary)) :=
    (MatchWrite.join u user).remote_eq_ok.mpr ⟨hm, by simp [hu.symm], rfl⟩
  have hcall : (w.clients i).call (.joinMatches m user) = (w.clients i).withMatchs
      ((w.clients i).loading.matchs.send (.joinMatchesRead m u user)) := by
    simp only [Client.call, MatchsViewModel.joinMatches, huuid, Client.loading]
  rw [runsAlone_send hcall hread]
  simp only [settled_read hread]
  have hroster : w.server.database.get ["Matchs", m, "players"] = roster w.server.database m := rfl
  rw [hroster]
  simp only [MatchsViewModel.complete, MatchsViewModel.joinMatchesReadCompletion, Answer.value]
  by_cases hcount : (roster w.server.database m).childrenCount = 14
  · simp only [hcount, true_and, ne_eq, not_true_eq_false, false_and, or_false]
    constructor
    · rintro ⟨s', c', ⟨orders, vm, rs, ⟨⟩, hrest⟩, rfl⟩
      obtain ⟨rfl, rfl⟩ := settled_nil.mp hrest
      rfl
    · rintro rfl
      exact ⟨_, _, ⟨fun _ => .byKey, _, [], rfl, settled_nil.mpr ⟨rfl, rfl⟩⟩, rfl⟩
  · simp only [hcount, false_and, ne_eq, not_false_eq_true, true_and, false_or, if_false,
      send_of_remote hwrite]
    constructor
    · rintro ⟨s', c', ⟨_, vm, rs, ⟨⟩, hrest⟩, rfl⟩
      rw [List.map_singleton, settled_write_then hwrite fun _ => rfl] at hrest
      obtain ⟨rfl, orders, rfl⟩ := settled_getAllMatchs.mp hrest
      exact ⟨orders, rfl⟩
    · rintro ⟨orders, rfl⟩
      refine ⟨_, _, ⟨fun _ => .byKey, _, [.joinMatchesWrite m u user], rfl, ?_⟩, rfl⟩
      rw [List.map_singleton, settled_write_then hwrite fun _ => rfl]
      exact settled_getAllMatchs.mpr ⟨rfl, orders, rfl⟩

/-- The database after the first request of a leave. -/
def leftRoster (db : Value) (m u : String) : Value := db.set ["Matchs", m, "players", u] .null

/-- The database after the last request of a leave that has found the user in slot `k`. -/
def leftSlot (db : Value) (m u k : String) : Value :=
  (leftRoster db m u).set ["Matchs", m, "Positions", k] .null

/-- A leave removes the user from the roster, reads the match, and removes the first position it
finds with his uuid. -/
theorem leave_alone (hm : m ≠ "") {u : String} (hu : u ≠ "")
    (huser : (w.clients i).currentUser = some u) :
    RunsAlone App.service Outcome.succeeds i (.leaveMatches m) w w' ↔ ∃ order orders,
      (MatchsViewModel.positionOfUser order u
          (matchNode (leftRoster w.server.database m u) m) = none ∧
        w' = w.after i (leftRoster w.server.database m u)
          ((w.clients i).matchs.relisted orders (leftRoster w.server.database m u))) ∨
      ∃ p, MatchsViewModel.positionOfUser order u
          (matchNode (leftRoster w.server.database m u) m) = some p ∧
        p.positionForMatch.getD "" ≠ "" ∧
        w' = w.after i (leftSlot w.server.database m u (p.positionForMatch.getD ""))
          ((w.clients i).matchs.relisted orders
            (leftSlot w.server.database m u (p.positionForMatch.getD ""))) := by
  have hleave : (MatchsViewModel.Request.leaveMatches m u).remote =
      .ok (.setValue ["Matchs", m, "players", u] .null) :=
    (MatchWrite.leave u).remote_eq_ok.mpr ⟨hm, by simp [hu.symm], rfl⟩
  have hread : (MatchsViewModel.Request.isUserInFootballArea m u).remote =
      .ok (.getData ["Matchs", m]) := (MatchRead.area u).remote_eq_ok.mpr ⟨hm, rfl⟩
  have hcall : (w.clients i).call (.leaveMatches m) = (w.clients i).withMatchs
      ((w.clients i).loading.matchs.send (.leaveMatches m u)) := by
    simp only [Client.call, MatchsViewModel.leaveMatches, huser, Client.loading]
  have hcomplete : ∀ orders, (w.clients i).loading.matchs.complete orders (.leaveMatches m u) .ok =
      .ok ((w.clients i).loading.matchs, [.isUserInFootballArea m u]) :=
    fun _ => send_of_remote hread _
  rw [runsAlone_send hcall hleave]
  simp only [settled_write_then hleave hcomplete, List.map_singleton,
    settled_isUserInFootballArea hm]
  constructor
  · rintro ⟨s', c', ⟨order, orders, ⟨hnone, rfl, rfl⟩ | ⟨p, hp, hk, rfl, rfl⟩⟩, rfl⟩
    · exact ⟨order, orders, .inl ⟨hnone, rfl⟩⟩
    · exact ⟨order, orders, .inr ⟨p, hp, hk, rfl⟩⟩
  · rintro ⟨order, orders, ⟨hnone, rfl⟩ | ⟨p, hp, hk, rfl⟩⟩
    · exact ⟨_, _, ⟨order, orders, .inl ⟨hnone, rfl, rfl⟩⟩, rfl⟩
    · exact ⟨_, _, ⟨order, orders, .inr ⟨p, hp, hk, rfl, rfl⟩⟩, rfl⟩

end Operations

end TifaSoccer
