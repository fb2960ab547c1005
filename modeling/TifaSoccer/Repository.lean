import TifaSoccer.Models

/-!
# Firebase as the app uses it

`FirebaseRepository` hands out references, and the view models build paths from them with
`child`. What a request then asks of Firebase is a `Remote`; `Firebase.serve` is the answer,
one atomic step on the server tree. A request may fail, which leaves the server as it was.

`child` also splits its argument at slashes and refuses the characters `.#$[]`. Everything the
app passes to it is a UUID, an Auth uid, the name of a slot, or the empty string a decoder put
in the place of a missing field, so a string is one path component here and what is left of
the validation is the test for emptiness. Where the ids of a database may be any strings,
`App.resolvingService` has the paths that Firebase resolves them to.
-/

namespace TifaSoccer

/-! ## References -/

/-- The exception `child` raises; it ends the app. -/
structure InvalidPath where
  reason : String
deriving DecidableEq

/-- A `DatabaseReference`: the path from the root. -/
abbrev Ref := List String

/-- `FirebaseRepository.getReference(path:)` -/
def getReference (path : String) : Ref := [path]

/-- `DatabaseReference.child` -/
def Ref.child (ref : Ref) (pathString : String) : Except InvalidPath Ref :=
  if pathString = "" then
    .error ⟨"(child:) Must be a non-empty string and not contain '.' '#' '$' '[' or ']'"⟩
  else .ok (ref ++ [pathString])

/-- A sequence returns if both parts do. -/
@[simp] theorem bind_eq_ok {ε α β : Type} {x : Except ε α} {f : α → Except ε β} {b : β} :
    (x >>= f) = .ok b ↔ ∃ a, x = .ok a ∧ f a = .ok b := by
  cases x with
  | error e => simp [bind, Except.bind]
  | ok a => simp [bind, Except.bind]

/-- A map returns if its argument does. -/
@[simp] theorem map_eq_ok {ε α β : Type} {x : Except ε α} {f : α → β} {b : β} :
    x.map f = .ok b ↔ ∃ a, x = .ok a ∧ f a = b := by
  cases x with
  | error e => simp [Except.map]
  | ok a => simp [Except.map]

/-- What is returned is what is not raised. -/
@[simp] theorem toOption_eq_some {ε α : Type} {x : Except ε α} {a : α} :
    x.toOption = some a ↔ x = .ok a := by
  cases x with
  | error e => simp [Except.toOption]
  | ok b => simp [Except.toOption]

/-- A value returns itself. -/
@[simp] theorem pure_eq_ok {ε α : Type} (a : α) : (pure a : Except ε α) = .ok a := rfl

/-- `child` succeeds exactly on a non-empty string. -/
@[simp] theorem child_eq_ok {ref ref' : Ref} {s : String} :
    ref.child s = .ok ref' ↔ s ≠ "" ∧ ref' = ref ++ [s] := by
  unfold Ref.child
  split_ifs with hs
  · simp [hs]
  · simp [hs, eq_comm]

/-! ## Requests and answers -/

/-- What one request asks of Firebase. -/
inductive Remote where
  | getData (ref : Ref)
  | setValue (ref : Ref) (value : Value)
  | updateChildValues (ref : Ref) (values : List (String × Value))
  | signIn (email password : String)
  | createUser (email password : String)
  | putData (name : String)
  | downloadURL (name : String)
  /-- nothing is asked: Auth has dispatched a callback to the main queue -/
  | dispatched

/-- `removeValue` is `setValue` of null. -/
def Remote.removeValue (ref : Ref) : Remote := .setValue ref .null

inductive Answer where
  | error (localizedDescription : String)
  | snapshot (value : Value)
  | ok
  | user (uid : String)
  | url (description : String)

/-- The value of the snapshot an answer carries. -/
def Answer.value : Answer → Value
  | .snapshot v => v
  | _ => .null

/-- The uid of the user an answer carries. -/
def Answer.uid : Answer → Option String
  | .user uid => some uid
  | _ => none

/-- What the environment decides about a request: whether it fails, the uid a new account
gets and the download URL of an uploaded picture. -/
structure Outcome where
  error : Option String := none
  uid : String := ""
  url : String := ""

structure Account where
  uid : String
  email : String
  password : String
deriving DecidableEq

/-- The server: the database tree and the Auth accounts. -/
structure Firebase where
  database : Value
  accounts : List Account

/-- The effect of a request on the database. -/
def Remote.write (db : Value) : Remote → Value
  | .setValue ref value => db.set ref value
  | .updateChildValues ref values => values.foldl (fun db f => db.set (ref ++ [f.1]) f.2) db
  | _ => db

/-- The effect of a request on the accounts. -/
def Remote.enroll (uid : String) (accounts : List Account) : Remote → List Account
  | .createUser email password => accounts ++ [⟨uid, email, password⟩]
  | _ => accounts

/-- Auth's own refusals: no account for the credentials, an e-mail address or uid in use. -/
def Remote.refusal (uid : String) (accounts : List Account) : Remote → Option String
  | .signIn email password =>
    if accounts.any fun a => a.email = email ∧ a.password = password then none
    else some "There is no user record corresponding to this identifier."
  | .createUser email _ =>
    if uid = "" ∨ accounts.any fun a => a.email = email ∨ a.uid = uid then
      some "The email address is already in use by another account."
    else none
  | _ => none

/-- The answer to a request that is not refused. -/
def Remote.answer (s : Firebase) (o : Outcome) : Remote → Answer
  | .getData ref => .snapshot (s.database.get ref)
  | .signIn email password =>
    match s.accounts.find? fun a => a.email = email ∧ a.password = password with
    | some a => .user a.uid
    | none => .ok
  | .createUser _ _ => .user o.uid
  | .downloadURL _ => .url o.url
  | _ => .ok

/-- One atomic step of the server. -/
def Firebase.serve (s : Firebase) (q : Remote) (o : Outcome) : Firebase × Answer :=
  match o.error, q.refusal o.uid s.accounts with
  -- the environment decides first: a request that does not get through is not looked at
  | some e, _ => (s, .error e)
  | none, some e => (s, .error e)
  | none, none =>
    (⟨q.write s.database, q.enroll o.uid s.accounts⟩, q.answer s o)

/-- A request that fails or is refused leaves the database alone; any other one writes. -/
theorem Firebase.database_serve (s : Firebase) (q : Remote) (o : Outcome) :
    (s.serve q o).1.database = s.database ∨
      (o.error = none ∧ (s.serve q o).1.database = q.write s.database) := by
  unfold Firebase.serve
  split
  · exact .inl rfl
  · exact .inl rfl
  · rename_i ho _
    exact .inr ⟨ho, rfl⟩

/-- A write that does not fail is applied. -/
theorem Firebase.serve_setValue (s : Firebase) (ref : Ref) (v : Value) {o : Outcome}
    (ho : o.error = none) :
    s.serve (.setValue ref v) o = (⟨s.database.set ref v, s.accounts⟩, .ok) := by
  unfold Firebase.serve
  rw [ho]
  rfl

/-- A read that does not fail answers with the value at its path. -/
theorem Firebase.serve_getData (s : Firebase) (ref : Ref) {o : Outcome} (ho : o.error = none) :
    s.serve (.getData ref) o = (s, .snapshot (s.database.get ref)) := by
  unfold Firebase.serve
  rw [ho]
  rfl

/-- A failed request changes nothing and answers with its error. -/
theorem Firebase.serve_error (s : Firebase) (q : Remote) {o : Outcome} {e : String}
    (ho : o.error = some e) : s.serve q o = (s, .error e) := by
  unfold Firebase.serve
  rw [ho]

end TifaSoccer
