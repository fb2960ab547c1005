import TifaSoccer.App

/-!
# What a request writes

The one place where the requests of the app are enumerated by their effect on the database.
`MatchWrite m r p v` says that request `r`, when it is applied, writes `v` at the path `p`
below `Matchs/m`; `matchNode_serve` says that these writes are all that can happen to
`Matchs/m`, and `matchNode_write` that they do happen. `UserWrite` and `userNode_serve` say the
same of `Users/<uid>`. Every invariant of the database is proved from these.
-/

namespace TifaSoccer

/-! ## The nodes of the database -/

/-- `Matchs/m` -/
def matchNode (db : Value) (m : String) : Value := (db.child "Matchs").child m

/-- `Matchs/m/players` -/
def roster (db : Value) (m : String) : Value := (matchNode db m).child "players"

/-- `Matchs/m/Positions` -/
def positions (db : Value) (m : String) : Value := (matchNode db m).child "Positions"

/-- `Users/uid` -/
def userNode (db : Value) (uid : String) : Value := (db.child "Users").child uid

/-! ## Writes below a match -/

/-- The writes below `Matchs/m`: the request, the path below the match and the value. -/
inductive MatchWrite (m : String) : Request → List String → Value → Prop
  | join (u : String) (user : UserModel) :
      MatchWrite m (.matchs (.joinMatchesWrite m u user)) ["players", u] (.object user.asDictionary)
  | leave (u : String) : MatchWrite m (.matchs (.leaveMatches m u)) ["players", u] .null
  | clearSlot (k : String) :
      MatchWrite m (.matchs (.deletePlayerForFootballArea m k)) ["Positions", k] .null
  | assign (k : String) (player : UserModel) :
      MatchWrite m (.matchs (.setPlayerPositionWithMatch m k player)) ["Positions", k]
        (.object (player.castUserPositionModel k).asDictionary)
  | unassign (k : String) :
      MatchWrite m (.matchs (.deletePlayerPositionWithMatch m k)) ["Positions", k] .null
  | planning (b : Bool) :
      MatchWrite m (.matchs (.setIsPlanningCompleteForMatch m b)) ["isPlanningComplete"]
        (.leaf (.bool b))
  | comment (key comment uuid date : String) :
      MatchWrite m (.matchs (.addComment m key comment uuid date)) ["Comments", key]
        (.object (MatchsViewModel.commentParams comment uuid date))
  | delete : MatchWrite m (.matchs (.deleteMatches m)) [] .null
  | create (adminMessage footballArea : String) (startDate finishDate : Int64) :
      MatchWrite m (.createMatch (.createMatch m adminMessage footballArea startDate finishDate)) []
        (.object
          (CreateMatchViewModel.matchParams m adminMessage footballArea startDate finishDate))

/-- A write is sent as a `setValue` at its path; with an empty string in the path, building the
reference raises. -/
theorem MatchWrite.remote_eq_ok {m : String} {r : Request} {p : List String} {v : Value}
    (h : MatchWrite m r p v) {q : Remote} :
    r.remote = .ok q ↔ m ≠ "" ∧ "" ∉ p ∧ Remote.setValue ("Matchs" :: m :: p) v = q := by
  cases h <;>
    simp [Request.remote, MatchsViewModel.Request.remote, CreateMatchViewModel.Request.remote,
      getReference, Remote.removeValue, and_assoc]

/-! ## Reads -/

/-- A read is answered with the value at its path, or with an error; with an error only when it
fails or its reference could not be built. -/
theorem answer_of_getData {r : Request} {ref : Ref} (hr : ∀ q, r.remote = .ok q → q = .getData ref)
    (s : Firebase) (o : Outcome) :
    (r.serve s o).2 = .snapshot (s.database.get ref) ∨
      (∃ e, (r.serve s o).2 = .error e) ∧ (o.error = none → ∀ q, r.remote ≠ .ok q) := by
  unfold Request.serve
  split
  · rename_i q hq
    rw [hr q hq]
    cases ho : o.error with
    | some e =>
      -- the request fails
      rw [s.serve_error _ ho]
      exact .inr ⟨⟨e, rfl⟩, by simp⟩
    | none =>
      rw [s.serve_getData _ ho]
      exact .inl rfl
  · rename_i e he
    exact .inr ⟨⟨_, rfl⟩, by simp [he]⟩

/-- The requests that read `Matchs/m`. -/
inductive MatchRead (m : String) : Request → Prop
  | area (u : String) : MatchRead m (.matchs (.isUserInFootballArea m u))
  | detail : MatchRead m (.matchs (.getMatchWithMatchID m))

/-- A read of a match needs its id. -/
theorem MatchRead.remote_eq_ok {m : String} {r : Request} (h : MatchRead m r) {q : Remote} :
    r.remote = .ok q ↔ m ≠ "" ∧ Remote.getData ["Matchs", m] = q := by
  cases h <;> simp [Request.remote, MatchsViewModel.Request.remote, getReference]

/-- So does the read of a join. -/
theorem joinMatchesRead_eq_ok (m u : String) (user : UserModel) {q : Remote} :
    (Request.matchs (.joinMatchesRead m u user)).remote = .ok q ↔
      m ≠ "" ∧ Remote.getData ["Matchs", m, "players"] = q := by
  simp [Request.remote, MatchsViewModel.Request.remote, getReference]

/-- A read of a match answers with the match, or fails. -/
theorem MatchRead.answer {m : String} {r : Request} (h : MatchRead m r) (s : Firebase)
    (o : Outcome) :
    (r.serve s o).2 = .snapshot (matchNode s.database m) ∨
      (∃ e, (r.serve s o).2 = .error e) ∧ (o.error = none → ∀ q, r.remote ≠ .ok q) :=
  answer_of_getData (fun _ hq => (h.remote_eq_ok.mp hq).2.symm) s o

/-! ## Writes below a user -/

/-- The writes below `Users/uid`, as the list of the fields written. -/
inductive UserWrite (uid : String) : Request → List (List String × Value) → Prop
  | register (email nameSurname : String) :
      UserWrite uid (.base (.registerWrite uid email nameSurname))
        [([], .object (BaseViewModel.registerParams uid email nameSurname))]
  | picture (url : String) :
      UserWrite uid (.base (.loadProfileImageWrite uid url)) [(["picture"], .leaf (.str url))]
  | profile (nameSurname position : String) :
      UserWrite uid (.updateProfile (.updatePlayerData uid nameSurname position))
        [(["nameSurname"], .leaf (.str nameSurname)), (["position"], .leaf (.str position))]

/-! ## All writes -/

/-- Every request the app sends reads, writes below one match, or writes below one user. -/
theorem write_cases {r : Request} {q : Remote} (h : r.remote = .ok q) :
    (∀ db, q.write db = db) ∨
      (∃ m p v, MatchWrite m r p v ∧ (m ≠ "" ∧ "" ∉ p) ∧
        ∀ db, q.write db = db.set ("Matchs" :: m :: p) v) ∨
      ∃ uid ws, UserWrite uid r ws ∧ uid ≠ "" ∧
        ∀ db, q.write db = ws.foldl (fun db w => db.set ("Users" :: uid :: w.1) w.2) db := by
  -- a write below a match is recognised by its constructor, its path comes from `remote_eq_ok`
  have hmatch : ∀ {m p v}, MatchWrite m r p v →
      ∃ m p v, MatchWrite m r p v ∧ (m ≠ "" ∧ "" ∉ p) ∧
        ∀ db, q.write db = db.set ("Matchs" :: m :: p) v := by
    intro m p v hw
    obtain ⟨hm, hp, rfl⟩ := hw.remote_eq_ok.mp h
    exact ⟨m, p, v, hw, ⟨hm, hp⟩, fun _ => rfl⟩
  -- view model by view model; what is left of each after its writes are its reads
  rcases r with r | r | r | r | r
  · cases r with
    | registerWrite uid email nameSurname =>
      simp [Request.remote, BaseViewModel.Request.remote, getReference] at h
      obtain ⟨huid, rfl⟩ := h
      exact .inr (.inr ⟨uid, _, .register email nameSurname, huid, fun _ => rfl⟩)
    | loadProfileImageWrite uid url =>
      simp [Request.remote, BaseViewModel.Request.remote, getReference] at h
      obtain ⟨huid, rfl⟩ := h
      exact .inr (.inr ⟨uid, _, .picture url, huid, fun _ => rfl⟩)
    | _ =>
      simp [Request.remote, BaseViewModel.Request.remote, getReference] at h
      obtain ⟨-, rfl⟩ := h
      exact .inl fun _ => rfl
  · cases r with
    | joinMatchesWrite m u user => exact .inr (.inl (hmatch (.join u user)))
    | leaveMatches m u => exact .inr (.inl (hmatch (.leave u)))
    | deletePlayerForFootballArea m k => exact .inr (.inl (hmatch (.clearSlot k)))
    | setPlayerPositionWithMatch m k player => exact .inr (.inl (hmatch (.assign k player)))
    | deletePlayerPositionWithMatch m k => exact .inr (.inl (hmatch (.unassign k)))
    | setIsPlanningCompleteForMatch m b => exact .inr (.inl (hmatch (.planning b)))
    | addComment m key comment uuid date =>
      exact .inr (.inl (hmatch (.comment key comment uuid date)))
    | deleteMatches m => exact .inr (.inl (hmatch .delete))
    | _ =>
      simp [Request.remote, MatchsViewModel.Request.remote, getReference] at h
      obtain ⟨-, rfl⟩ := h
      exact .inl fun _ => rfl
  · obtain ⟨m, adminMessage, footballArea, startDate, finishDate⟩ := r
    exact .inr (.inl (hmatch (.create adminMessage footballArea startDate finishDate)))
  · cases r
    simp [Request.remote, PlayersViewModel.Request.remote, getReference] at h
    subst h
    exact .inl fun _ => rfl
  · obtain ⟨uid, nameSurname, position⟩ := r
    simp [Request.remote, UpdateProfileViewModel.Request.remote, getReference] at h
    obtain ⟨huid, rfl⟩ := h
    exact .inr (.inr ⟨uid, _, .profile nameSurname position, huid, fun _ => rfl⟩)

/-- The database after a server step: unchanged, or with the request's write applied. -/
theorem database_serve (s : Firebase) (r : Request) (o : Outcome) :
    (r.serve s o).1.database = s.database ∨
      ∃ q, r.remote = .ok q ∧ o.error = none ∧ (r.serve s o).1.database = q.write s.database := by
  unfold Request.serve
  split
  · rename_i q hq
    rcases s.database_serve q o with h | ⟨ho, h⟩
    · exact .inl h
    · exact .inr ⟨q, hq, ho, h⟩
  · exact .inl rfl

/-- A request that fails leaves the server alone. -/
theorem serve_failed (s : Firebase) (r : Request) {o : Outcome} {e : String}
    (ho : o.error = some e) : (r.serve s o).1 = s := by
  unfold Request.serve
  split
  · rw [s.serve_error _ ho]
  · rfl

/-! ## The effect on one match -/

/-- A write below a match, seen from a match. -/
theorem matchNode_set_match (db : Value) (m m' : String) (p : List String) (v : Value) :
    matchNode (db.set ("Matchs" :: m' :: p) v) m =
      if m = m' then (matchNode db m).set p v else matchNode db m := by
  simp only [matchNode, Json.set_cons, Json.child_setChild, if_true]
  split_ifs with h
  · rw [h]
  · rfl

/-- A write below a user is not seen from a match. -/
theorem matchNode_set_user (db : Value) (m uid : String) (p : List String) (v : Value) :
    matchNode (db.set ("Users" :: uid :: p) v) m = matchNode db m := by
  simp [matchNode]

/-- Writes below a user are not seen from a match, however many they are. -/
theorem matchNode_foldl_user (m uid : String) (ws : List (List String × Value)) (db : Value) :
    matchNode (ws.foldl (fun db w => db.set ("Users" :: uid :: w.1) w.2) db) m =
      matchNode db m := by
  induction ws generalizing db with
  | nil => rfl
  | cons w ws ih => rw [List.foldl_cons, ih, matchNode_set_user]

/-- A server step leaves `Matchs/m` alone, or applies a write below it. -/
theorem matchNode_serve (s : Firebase) (r : Request) (o : Outcome) (m : String) :
    matchNode (r.serve s o).1.database m = matchNode s.database m ∨
      ∃ p v, o.error = none ∧ MatchWrite m r p v ∧ (m ≠ "" ∧ "" ∉ p) ∧
        matchNode (r.serve s o).1.database m = (matchNode s.database m).set p v := by
  rcases database_serve s r o with h | ⟨q, hq, ho, h⟩
  · exact .inl (by rw [h])
  · rw [h]
    rcases write_cases hq with hread | ⟨m', p, v, hw, hpath, hset⟩ | ⟨uid, ws, -, -, hset⟩
    · exact .inl (by rw [hread])
    · rw [hset, matchNode_set_match]
      by_cases hm : m = m'
      · subst hm
        exact .inr ⟨p, v, ho, hw, hpath, if_pos rfl⟩
      · exact .inl (if_neg hm)
    · exact .inl (by rw [hset, matchNode_foldl_user])

/-- A write below `Matchs/m` that does not fail is applied. -/
theorem matchNode_write {m : String} {r : Request} {p : List String} {v : Value}
    (h : MatchWrite m r p v) (hm : m ≠ "") (hp : "" ∉ p) (s : Firebase) {o : Outcome}
    (ho : o.error = none) :
    matchNode (r.serve s o).1.database m = (matchNode s.database m).set p v := by
  have hremote : r.remote = .ok (.setValue ("Matchs" :: m :: p) v) :=
    h.remote_eq_ok.mpr ⟨hm, hp, rfl⟩
  unfold Request.serve
  rw [hremote]
  show matchNode (s.serve (.setValue ("Matchs" :: m :: p) v) o).1.database m = _
  rw [s.serve_setValue _ _ ho, matchNode_set_match, if_pos rfl]

/-! ## The effect on one user -/

/-- A write below a match is not seen from a user. -/
theorem userNode_set_match (db : Value) (uid m : String) (p : List String) (v : Value) :
    userNode (db.set ("Matchs" :: m :: p) v) uid = userNode db uid := by
  simp [userNode]

/-- The fields written below a user. -/
theorem userNode_foldl_user (uid uid' : String) (ws : List (List String × Value)) (db : Value) :
    userNode (ws.foldl (fun db w => db.set ("Users" :: uid' :: w.1) w.2) db) uid =
      if uid = uid' then ws.foldl (fun doc w => doc.set w.1 w.2) (userNode db uid)
      else userNode db uid := by
  -- the fields are written one after the other, each below the same user
  induction ws generalizing db with
  | nil => simp
  | cons w ws ih =>
    have hset : userNode (db.set ("Users" :: uid' :: w.1) w.2) uid =
        if uid = uid' then (userNode db uid).set w.1 w.2 else userNode db uid := by
      simp only [userNode, Json.set_cons, Json.child_setChild, if_true]
      split_ifs with h
      · rw [h]
      · rfl
    rw [List.foldl_cons, ih, hset]
    split_ifs <;> rfl

/-- A server step leaves `Users/uid` alone, or applies a write below it. -/
theorem userNode_serve (s : Firebase) (r : Request) (o : Outcome) (uid : String) :
    userNode (r.serve s o).1.database uid = userNode s.database uid ∨
      ∃ ws, o.error = none ∧ UserWrite uid r ws ∧ uid ≠ "" ∧
        userNode (r.serve s o).1.database uid =
          ws.foldl (fun doc w => doc.set w.1 w.2) (userNode s.database uid) := by
  rcases database_serve s r o with h | ⟨q, hq, ho, h⟩
  · exact .inl (by rw [h])
  · rw [h]
    rcases write_cases hq with hread | ⟨m, p, v, -, -, hset⟩ | ⟨uid', ws, hw, hne, hset⟩
    · exact .inl (by rw [hread])
    · exact .inl (by rw [hset, userNode_set_match])
    · rw [hset, userNode_foldl_user]
      by_cases huid : uid = uid'
      · subst huid
        exact .inr ⟨ws, ho, hw, hne, if_pos rfl⟩
      · exact .inl (if_neg huid)

/-- A write below a user that does not fail is acknowledged. -/
theorem UserWrite.acknowledged {uid : String} {r : Request} {ws : List (List String × Value)}
    (h : UserWrite uid r ws) (huid : uid ≠ "") (s : Firebase) {o : Outcome}
    (ho : o.error = none) : (r.serve s o).2 = .ok := by
  cases h <;>
    simp [Request.serve, Request.remote, BaseViewModel.Request.remote,
      UpdateProfileViewModel.Request.remote, getReference, Ref.child, huid, Firebase.serve, ho,
      Remote.refusal, Remote.answer, bind, Except.bind]

/-! ## The effect on the accounts -/

/-- Only a registration creates an account. -/
theorem eq_registerCreate_of_remote {r : Request} {email password : String}
    (h : r.remote = .ok (.createUser email password)) :
    ∃ nameSurname, r = .base (.registerCreate email password nameSurname) := by
  rcases r with r | r | r | r | r
  · cases r <;> simp [Request.remote, BaseViewModel.Request.remote] at h
    obtain ⟨rfl, rfl⟩ := h
    exact ⟨_, rfl⟩
  · cases r <;> simp [Request.remote, MatchsViewModel.Request.remote, Remote.removeValue] at h
  · cases r
    simp [Request.remote, CreateMatchViewModel.Request.remote] at h
  · cases r
    simp [Request.remote, PlayersViewModel.Request.remote] at h
  · cases r
    simp [Request.remote, UpdateProfileViewModel.Request.remote] at h

/-- A server step adds an account only when it answers a creation with the new user. -/
theorem accounts_serve (s : Firebase) (r : Request) (o : Outcome) :
    (r.serve s o).1.accounts = s.accounts ∨
      ∃ email password nameSurname uid, r = .base (.registerCreate email password nameSurname) ∧
        uid ≠ "" ∧ (r.serve s o).2 = .user uid ∧
        (r.serve s o).1.accounts = s.accounts ++ [⟨uid, email, password⟩] := by
  unfold Request.serve
  split
  · rename_i q hq
    unfold Firebase.serve
    split
    · exact .inl rfl
    · exact .inl rfl
    · rename_i hrefusal
      cases q with
      | createUser email password =>
        obtain ⟨nameSurname, rfl⟩ := eq_registerCreate_of_remote hq
        have huid : o.uid ≠ "" := by
          intro hempty
          simp [Remote.refusal, hempty] at hrefusal
        exact .inr ⟨email, password, nameSurname, o.uid, rfl, huid, rfl, rfl⟩
      | _ => exact .inl rfl
  · exact .inl rfl

/-- Auth refuses an address that is in use, so that no two accounts come to share one. -/
theorem emails_nodup_serve {s : Firebase} (r : Request) (o : Outcome)
    (h : (s.accounts.map Account.email).Nodup) :
    ((r.serve s o).1.accounts.map Account.email).Nodup := by
  unfold Request.serve
  split
  · rename_i q hq
    unfold Firebase.serve
    split
    · exact h
    · exact h
    · rename_i hrefusal
      cases q with
      | createUser email password =>
        have hfree : email ∉ s.accounts.map Account.email := by
          intro hmem
          obtain ⟨a, ha, rfl⟩ := List.mem_map.mp hmem
          simp [Remote.refusal] at hrefusal
          exact (hrefusal.2 a ha).1 rfl
        show ((s.accounts ++ [(⟨o.uid, email, password⟩ : Account)]).map Account.email).Nodup
        rw [List.map_append, List.map_singleton, ← List.concat_eq_append]
        exact List.Nodup.concat hfree h
      | _ => exact h
  · exact h

/-- The credentials of an account sign in to this account. -/
theorem serve_signIn {s : Firebase} (h : (s.accounts.map Account.email).Nodup)
    {account : Account} (haccount : account ∈ s.accounts) {o : Outcome} (ho : o.error = none) :
    s.serve (.signIn account.email account.password) o = (s, .user account.uid) := by
  have hany : (s.accounts.any fun a =>
      a.email = account.email ∧ a.password = account.password) = true :=
    List.any_eq_true.mpr ⟨account, haccount, by simp⟩
  have hfind : (s.accounts.find? fun a =>
      a.email = account.email ∧ a.password = account.password) = some account := by
    cases hfound : s.accounts.find? fun a =>
        a.email = account.email ∧ a.password = account.password with
    | none => simpa using List.find?_eq_none.mp hfound account haccount
    | some b =>
      have hb : b.email = account.email ∧ b.password = account.password := by
        simpa using List.find?_some hfound
      rw [List.inj_on_of_nodup_map h (List.mem_of_find?_eq_some hfound) haccount hb.1]
  unfold Firebase.serve
  simp only [ho, Remote.refusal, hany, if_true, Remote.write, Remote.enroll, Remote.answer, hfind]

/-- A callback that Auth has dispatched asks nothing of the server. -/
theorem serve_dispatched (s : Firebase) {o : Outcome} (ho : o.error = none) :
    s.serve .dispatched o = (s, .ok) := by
  unfold Firebase.serve
  rw [ho]
  rfl

end TifaSoccer
