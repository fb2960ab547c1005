import TifaSoccer.ClientTheorems
import TifaSoccer.ServerTheorems

/-!
# Stored ids with slashes

`child` splits a string at its slashes, so a request goes to the path its reference resolves to.
Ids the app generates have no slash, but it builds its references also from what it has decoded,
and a database may store any string. `App.resolvingService` serves every request at the resolved
path. Where the id of the match is one component, a request writes below this match as in
`TifaSoccer.ServerTheorems`, only that what comes after the id may split
(`matchNode_serveResolved`).
-/

namespace TifaSoccer

/-! ## Resolved references -/

/-- The components of a path: empty ones do not count. -/
def pathComponents (pathString : String) : List String :=
  ((pathString.toList.splitOn '/').filter fun cs => !cs.isEmpty).map String.ofList

/-- The request with every string of its reference split at the slashes. -/
def Remote.resolve : Remote → Remote
  | .getData ref => .getData (ref.flatMap pathComponents)
  | .setValue ref value => .setValue (ref.flatMap pathComponents) value
  | .updateChildValues ref values => .updateChildValues (ref.flatMap pathComponents) values
  | q => q

/-- The server's step for a request, at the path Firebase resolves its reference to. -/
def Request.serveResolved (s : Firebase) (r : Request) (o : Outcome) : Firebase × Answer :=
  match r.remote with
  | .ok q => s.serve q.resolve o
  | .error e => (s, .error e.reason)

/-- The app with stored names that may have slashes. -/
def App.resolvingService :
    Async.Service Firebase Client Op Request Answer Outcome (ℕ → DictOrder) :=
  { App.service with serve := fun s r o => r.serveResolved s o }

/-- A string without a slash is one component. -/
theorem pathComponents_of_plain {s : String} (hne : s ≠ "") (hslash : '/' ∉ s.toList) :
    pathComponents s = [s] := by
  have hchars : s.toList.isEmpty = false := by
    rw [List.isEmpty_eq_false_iff]
    exact fun hnil => hne (String.toList_eq_nil_iff.mp hnil)
  rw [pathComponents, List.splitOn_eq_singleton hslash]
  simp [hchars, String.ofList_toList]

/-- A reference below a key of the source resolves to a path below it. -/
theorem flatMap_pathComponents_cons {key : String} (hne : key ≠ "") (hslash : '/' ∉ key.toList)
    (p : List String) : (key :: p).flatMap pathComponents = key :: p.flatMap pathComponents := by
  rw [List.flatMap_cons, pathComponents_of_plain hne hslash]
  rfl

/-- A reference below one match resolves to a path below it. -/
theorem flatMap_pathComponents {m : String} (hm : m ≠ "") (hslash : '/' ∉ m.toList)
    (p : List String) :
    ("Matchs" :: m :: p).flatMap pathComponents =
      "Matchs" :: m :: p.flatMap pathComponents := by
  rw [flatMap_pathComponents_cons (by decide) (by decide), flatMap_pathComponents_cons hm hslash]

/-- The reference of a request to the database. -/
def Remote.ref : Remote → Ref
  | .getData ref => ref
  | .setValue ref _ => ref
  | .updateChildValues ref _ => ref
  | _ => []

/-- An id that `child` takes for one component of a path: it neither splits nor refuses it. -/
structure PlainID (id : String) : Prop where
  nonempty : id ≠ ""
  plain : ∀ c ∈ ['/', '.', '#', '$', '[', ']'], c ∉ id.toList

/-- A plain id has no slash. -/
theorem PlainID.slash {id : String} (h : PlainID id) : '/' ∉ id.toList :=
  h.plain '/' (by simp)

/-- Where every string of the reference is a plain id, resolving it changes nothing. -/
theorem serveResolved_of_plain {r : Request} {q : Remote} (hq : r.remote = .ok q)
    (h : ∀ id ∈ q.ref, PlainID id) (s : Firebase) (o : Outcome) :
    r.serveResolved s o = r.serve s o := by
  have hplain : ∀ ref : Ref, (∀ id ∈ ref, PlainID id) → ref.flatMap pathComponents = ref := by
    intro ref href
    induction ref with
    | nil => rfl
    | cons id ref ih =>
      have hid := href id (List.mem_cons_self ..)
      rw [flatMap_pathComponents_cons hid.nonempty hid.slash,
        ih fun id' hid' => href id' (List.mem_cons_of_mem _ hid')]
  have hresolve : q.resolve = q := by
    cases q with
    | getData ref => rw [Remote.resolve, hplain ref h]
    | setValue ref v => rw [Remote.resolve, hplain ref h]
    | updateChildValues ref vs => rw [Remote.resolve, hplain ref h]
    | _ => rfl
  rw [Request.serveResolved, Request.serve, hq]
  show s.serve q.resolve o = s.serve q o
  rw [hresolve]

/-! ## The match of a request -/

/-- The match a request is about; `getAllMatchs` is about none. -/
def MatchsViewModel.Request.matchID : MatchsViewModel.Request → Option String
  | .getAllMatchs => none
  | .joinMatchesRead matchsID _ _ => some matchsID
  | .joinMatchesWrite matchsID _ _ => some matchsID
  | .isUserInFootballArea matchID _ => some matchID
  | .deletePlayerForFootballArea matchID _ => some matchID
  | .leaveMatches matchsID _ => some matchsID
  | .deleteMatches matchsID => some matchsID
  | .setPlayerPositionWithMatch matchID _ _ => some matchID
  | .deletePlayerPositionWithMatch matchID _ => some matchID
  | .getMatchWithMatchID matchID => some matchID
  | .setIsPlanningCompleteForMatch matchID _ => some matchID
  | .addComment matchID _ _ _ _ => some matchID

def Request.matchID : Request → Option String
  | .matchs r => r.matchID
  | .createMatch (.createMatch m _ _ _ _) => some m
  | _ => none

/-- The id of the match a request is about has no slash. -/
def UnsplitMatch (_ : World) (fl : Flight) (_ : Outcome) : Prop :=
  ∀ m ∈ fl.request.matchID, '/' ∉ m.toList

instance (w : World) (fl : Flight) (o : Outcome) : Decidable (UnsplitMatch w fl o) :=
  inferInstanceAs (Decidable (∀ m ∈ fl.request.matchID, _))

/-- The match of a write is the one the request names. -/
theorem MatchWrite.matchID {m : String} {r : Request} {p : List String} {v : Value}
    (h : MatchWrite m r p v) : r.matchID = some m := by
  cases h <;> rfl

/-! ## The effect on one match -/

/-- What is set below `Users` is not below a match. -/
theorem matchNode_set_users (db : Value) (m : String) (p : List String) (v : Value) :
    matchNode (db.set (("Users" :: p).flatMap pathComponents) v) m = matchNode db m := by
  rw [flatMap_pathComponents_cons (by decide) (by decide)]
  simp [matchNode]

/-- A request writes below a match, or it leaves all matches alone wherever it is resolved to. -/
theorem resolve_cases {r : Request} {q : Remote} (h : r.remote = .ok q) :
    (∃ m p v, MatchWrite m r p v ∧ (m ≠ "" ∧ "" ∉ p) ∧ q = .setValue ("Matchs" :: m :: p) v) ∨
      ∀ db m, matchNode (q.resolve.write db) m = matchNode db m := by
  by_cases hmatch : ∃ m p v, MatchWrite m r p v
  · obtain ⟨m, p, v, hw⟩ := hmatch
    obtain ⟨hm, hp, rfl⟩ := hw.remote_eq_ok.mp h
    exact .inl ⟨m, p, v, hw, ⟨hm, hp⟩, rfl⟩
  · right
    rcases r with r | r | r | r | r
    · cases r with
      | registerWrite uid email nameSurname =>
        simp [Request.remote, BaseViewModel.Request.remote, getReference] at h
        obtain ⟨-, rfl⟩ := h
        exact fun db m => matchNode_set_users db m [uid] _
      | loadProfileImageWrite uid url =>
        simp [Request.remote, BaseViewModel.Request.remote, getReference] at h
        obtain ⟨-, rfl⟩ := h
        exact fun db m => matchNode_set_users db m [uid, "picture"] _
      | _ =>
        simp [Request.remote, BaseViewModel.Request.remote, getReference] at h
        obtain ⟨-, rfl⟩ := h
        exact fun _ _ => rfl
    · cases r with
      | joinMatchesRead | isUserInFootballArea | getMatchWithMatchID | getAllMatchs =>
        simp [Request.remote, MatchsViewModel.Request.remote, getReference] at h
        obtain ⟨-, rfl⟩ := h
        exact fun _ _ => rfl
      | _ => exact absurd ⟨_, _, _, by constructor⟩ hmatch
    · obtain ⟨m, adminMessage, footballArea, startDate, finishDate⟩ := r
      exact absurd ⟨_, _, _, .create adminMessage footballArea startDate finishDate⟩ hmatch
    · cases r
      simp [Request.remote, PlayersViewModel.Request.remote, getReference] at h
      subst h
      exact fun _ _ => rfl
    · obtain ⟨uid, nameSurname, position⟩ := r
      simp [Request.remote, UpdateProfileViewModel.Request.remote, getReference] at h
      obtain ⟨-, rfl⟩ := h
      intro db m
      have hset : ∀ (db : Value) (k : String) (v : Value),
          matchNode (db.set (["Users", uid].flatMap pathComponents ++ [k]) v) m =
            matchNode db m := by
        intro db k v
        rw [flatMap_pathComponents_cons (by decide) (by decide)]
        simp [matchNode]
      exact (hset _ _ _).trans (hset db _ _)

/-- A server step leaves `Matchs/m` alone, or applies a write below it. -/
theorem matchNode_serveResolved {r : Request} (hr : ∀ m' ∈ r.matchID, '/' ∉ m'.toList)
    (s : Firebase) (o : Outcome) (m : String) :
    matchNode (r.serveResolved s o).1.database m = matchNode s.database m ∨
      ∃ p v, o.error = none ∧ MatchWrite m r p v ∧ (m ≠ "" ∧ "" ∉ p) ∧
        matchNode (r.serveResolved s o).1.database m =
          (matchNode s.database m).set (p.flatMap pathComponents) v := by
  unfold Request.serveResolved
  split
  · rename_i q hq
    rcases s.database_serve q.resolve o with h | ⟨ho, h⟩
    · exact .inl (by rw [h])
    · rw [h]
      rcases resolve_cases hq with ⟨m', p, v, hw, hpath, rfl⟩ | hother
      · show matchNode (s.database.set (("Matchs" :: m' :: p).flatMap pathComponents) v) m = _ ∨ _
        rw [flatMap_pathComponents hpath.1 (hr m' hw.matchID), matchNode_set_match]
        by_cases hm : m = m'
        · subst hm
          refine .inr ⟨p, v, ho, hw, hpath, ?_⟩
          show matchNode (s.database.set (("Matchs" :: m :: p).flatMap pathComponents) v) m = _
          rw [flatMap_pathComponents hpath.1 (hr m hw.matchID), matchNode_set_match, if_pos rfl]
        · exact .inl (if_neg hm)
      · exact .inl (hother s.database m)
  · exact .inl rfl

/-- A write below `Matchs/m` that does not fail is applied. -/
theorem matchNode_writeResolved {m : String} {r : Request} {p : List String} {v : Value}
    (h : MatchWrite m r p v) (hm : m ≠ "") (hslash : '/' ∉ m.toList) (hp : "" ∉ p) (s : Firebase)
    {o : Outcome} (ho : o.error = none) :
    matchNode (r.serveResolved s o).1.database m =
      (matchNode s.database m).set (p.flatMap pathComponents) v := by
  have hremote : r.remote = .ok (.setValue ("Matchs" :: m :: p) v) :=
    h.remote_eq_ok.mpr ⟨hm, hp, rfl⟩
  unfold Request.serveResolved
  rw [hremote]
  show matchNode (s.serve (Remote.setValue ("Matchs" :: m :: p) v).resolve o).1.database m = _
  rw [Remote.resolve, flatMap_pathComponents hm hslash, s.serve_setValue _ _ ho,
    matchNode_set_match, if_pos rfl]

/-- A request that fails leaves the server alone. -/
theorem serveResolved_failed (s : Firebase) (r : Request) {o : Outcome} {e : String}
    (ho : o.error = some e) : (r.serveResolved s o).1 = s := by
  unfold Request.serveResolved
  split
  · rw [s.serve_error _ ho]
  · rfl

end TifaSoccer
