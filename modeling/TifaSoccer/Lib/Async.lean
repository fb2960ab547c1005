import Mathlib.Data.Nat.Notation
import Mathlib.Logic.Function.Basic
import TifaSoccer.Lib.Run

/-!
# Clients of a shared server with asynchronous requests

Any number of clients share one server. A client acts in two ways: it makes a call, which may
put requests in flight, or it runs the completion of one of its answered requests, which may
put further requests in flight. The server answers a request in one atomic step. Calls, server
steps and completions interleave freely; nothing orders the requests in flight.

A `Service` gives the three functions; `World` is the server, the clients and the requests in
flight; `Service.step` is the step function and `Stepped` its inversion. A flight carries two
history variables, which no function of the service reads: the state its client was in when
the request was issued, and the request whose completion issued it.
-/

namespace Async

/-- A request between its issue and its completion. -/
structure Flight (ι C R A : Type) where
  owner : ι
  request : R
  /-- the request whose completion issued this one; none when a call did -/
  cause : Option R
  /-- the state of the client when it issued the request -/
  issuedIn : C
  answer : Option A

structure World (ι S C R A : Type) where
  server : S
  clients : ι → C
  flights : List (Flight ι C R A)

/-- What a kind of client and server do: `call` and `complete` return the requests they put in
flight, and are undefined where the client cannot go on. `serve` is told the outcome `F` that
the environment picks, `complete` the choices `D` left open by the client's runtime. -/
structure Service (S C O R A F D : Type) where
  call : C → O → Option (C × List R)
  serve : S → R → F → S × A
  complete : C → R → A → D → Option (C × List R)

inductive Label (ι O F D : Type) where
  | call (i : ι) (op : O)
  | serve (n : ℕ) (outcome : F)
  | deliver (n : ℕ) (choice : D)

variable {ι S C O R A F D : Type}

/-- The flights of the requests a client has just issued. -/
def issue (i : ι) (cause : Option R) (c : C) (rs : List R) : List (Flight ι C R A) :=
  rs.map fun r => ⟨i, r, cause, c, none⟩

/-- What has just been issued is not answered. -/
@[simp] theorem mem_issue {i : ι} {cause : Option R} {c : C} {rs : List R}
    {fl : Flight ι C R A} : fl ∈ issue i cause c rs ↔ ∃ r ∈ rs, fl = ⟨i, r, cause, c, none⟩ := by
  simp [issue, eq_comm]

section Step

variable [DecidableEq ι] (P : Service S C O R A F D)

/-- One step of the whole system. -/
def Service.step (w : World ι S C R A) : Label ι O F D → Option (World ι S C R A)
  | .call i op =>
    (P.call (w.clients i) op).map fun (c, rs) =>
      { w with
        clients := Function.update w.clients i c
        flights := w.flights ++ issue i none (w.clients i) rs }
  | .serve n o =>
    match w.flights[n]? with
    -- a request is served once
    | some ⟨i, r, cause, c, none⟩ =>
      some { w with
        server := (P.serve w.server r o).1
        flights := w.flights.set n ⟨i, r, cause, c, some (P.serve w.server r o).2⟩ }
    | _ => none
  | .deliver n d =>
    match w.flights[n]? with
    -- the completion runs in the client's present state, not in the one that issued the request
    | some ⟨i, r, _, _, some a⟩ =>
      (P.complete (w.clients i) r a d).map fun (c, rs) =>
        { w with
          clients := Function.update w.clients i c
          flights := w.flights.eraseIdx n ++ issue i (some r) (w.clients i) rs }
    | _ => none

/-- Everything a step can do, one constructor for each kind of label. -/
inductive Stepped : World ι S C R A → Label ι O F D → World ι S C R A → Prop
  | call {s : S} {cs : ι → C} {fs : List (Flight ι C R A)} {i : ι} {op : O} {c : C}
      {rs : List R} (h : P.call (cs i) op = some (c, rs)) :
      Stepped ⟨s, cs, fs⟩ (.call i op)
        ⟨s, Function.update cs i c, fs ++ issue i none (cs i) rs⟩
  | serve {s : S} {cs : ι → C} {l₁ l₂ : List (Flight ι C R A)} {i : ι} {r : R}
      {cause : Option R} {c : C} (o : F) :
      Stepped ⟨s, cs, l₁ ++ ⟨i, r, cause, c, none⟩ :: l₂⟩ (.serve l₁.length o)
        ⟨(P.serve s r o).1, cs, l₁ ++ ⟨i, r, cause, c, some (P.serve s r o).2⟩ :: l₂⟩
  | deliver {s : S} {cs : ι → C} {l₁ l₂ : List (Flight ι C R A)} {i : ι} {r : R}
      {cause : Option R} {c₀ : C} {a : A} {c : C} {rs : List R} (d : D)
      (h : P.complete (cs i) r a d = some (c, rs)) :
      Stepped ⟨s, cs, l₁ ++ ⟨i, r, cause, c₀, some a⟩ :: l₂⟩ (.deliver l₁.length d)
        ⟨s, Function.update cs i c, (l₁ ++ l₂) ++ issue i (some r) (cs i) rs⟩

/-- A list around one of its elements. -/
private theorem split_at_index {α : Type} {l : List α} {n : ℕ} {x : α} (h : l[n]? = some x) :
    ∃ l₁ l₂, l = l₁ ++ x :: l₂ ∧ l₁.length = n := by
  obtain ⟨hn, hx⟩ := List.getElem?_eq_some_iff.mp h
  refine ⟨l.take n, l.drop (n + 1), ?_, ?_⟩
  · rw [← hx, List.getElem_cons_drop, List.take_append_drop]
  · rw [List.length_take, Nat.min_eq_left (Nat.le_of_lt hn)]

/-- What is in a list after one element has been replaced is the new one, or was there before. -/
theorem mem_replaced {α : Type} {l₁ l₂ : List α} {y z : α} (x : α) (h : z ∈ l₁ ++ y :: l₂) :
    z = y ∨ z ∈ l₁ ++ x :: l₂ := by
  rcases List.mem_append.mp h with h | h
  · exact .inr (List.mem_append_left _ h)
  · exact (List.mem_cons.mp h).imp_right fun h =>
      List.mem_append_right _ (List.mem_cons_of_mem _ h)

/-- A step does what `Stepped` says, -/
theorem stepped_of_step {w w' : World ι S C R A} {l : Label ι O F D}
    (h : P.step w l = some w') : Stepped P w l w' := by
  obtain ⟨s, cs, fs⟩ := w
  cases l with
  | call i op =>
    simp only [Service.step, Option.map_eq_some_iff] at h
    obtain ⟨⟨c, rs⟩, hcall, rfl⟩ := h
    exact .call hcall
  | serve n o =>
    simp only [Service.step] at h
    split at h
    · rename_i i r cause c hget
      cases h
      obtain ⟨l₁, l₂, rfl, rfl⟩ := split_at_index hget
      rw [List.set_append_right _ _ (Nat.le_refl _), Nat.sub_self, List.set_cons_zero]
      exact .serve o
    · cases h
  | deliver n d =>
    simp only [Service.step] at h
    split at h
    · rename_i i r cause c₀ a hget
      simp only [Option.map_eq_some_iff] at h
      obtain ⟨⟨c, rs⟩, hcomplete, rfl⟩ := h
      obtain ⟨l₁, l₂, rfl, rfl⟩ := split_at_index hget
      rw [List.eraseIdx_append_of_length_le (Nat.le_refl _), Nat.sub_self, List.eraseIdx_cons_zero]
      exact .deliver d hcomplete
    · cases h

/-- and what `Stepped` says is a step. -/
theorem step_of_stepped {w w' : World ι S C R A} {l : Label ι O F D} (h : Stepped P w l w') :
    P.step w l = some w' := by
  cases h with
  | call hcall => simp [Service.step, hcall]
  | serve o => simp [Service.step]
  | @deliver s cs l₁ l₂ i r cause c₀ a c rs d hcomplete =>
    simp [Service.step, hcomplete, List.eraseIdx_append_of_length_le (Nat.le_refl l₁.length)]

/-- Where a request that is in flight after a step comes from. -/
inductive Origin (w : World ι S C R A) : Label ι O F D → Flight ι C R A → Prop
  /-- it was in flight before -/
  | kept {l : Label ι O F D} {fl : Flight ι C R A} (h : fl ∈ w.flights) : Origin w l fl
  /-- a call issued it -/
  | called {i : ι} {op : O} {c : C} {rs : List R} {r : R}
      (h : P.call (w.clients i) op = some (c, rs)) (hr : r ∈ rs) :
      Origin w (.call i op) ⟨i, r, none, w.clients i, none⟩
  /-- the server has just answered it -/
  | served {n : ℕ} {o : F} {fl : Flight ι C R A} (hget : w.flights[n]? = some fl)
      (hnone : fl.answer = none) :
      Origin w (.serve n o) { fl with answer := some (P.serve w.server fl.request o).2 }
  /-- the completion of another request issued it -/
  | completed {n : ℕ} {d : D} {fl : Flight ι C R A} {a : A} {c : C} {rs : List R} {r : R}
      (hget : w.flights[n]? = some fl) (ha : fl.answer = some a)
      (h : P.complete (w.clients fl.owner) fl.request a d = some (c, rs)) (hr : r ∈ rs) :
      Origin w (.deliver n d) ⟨fl.owner, r, some fl.request, w.clients fl.owner, none⟩

/-- Every request in flight after a step has an origin. -/
theorem origin_of_step {w w' : World ι S C R A} {l : Label ι O F D} (h : P.step w l = some w')
    {fl : Flight ι C R A} (hfl : fl ∈ w'.flights) : Origin P w l fl := by
  cases stepped_of_step P h with
  | call hcall =>
    rcases List.mem_append.mp hfl with hfl | hfl
    · exact .kept hfl
    · obtain ⟨r, hr, rfl⟩ := mem_issue.mp hfl
      exact .called hcall hr
  | @serve s cs l₁ l₂ i r cause c o =>
    rcases mem_replaced ⟨i, r, cause, c, none⟩ hfl with rfl | hfl
    · have hget : (l₁ ++ (⟨i, r, cause, c, none⟩ : Flight ι C R A) :: l₂)[l₁.length]? =
          some ⟨i, r, cause, c, none⟩ := by simp
      exact @Origin.served _ _ _ _ _ _ _ _ P ⟨s, cs, _⟩ _ o _ hget rfl
    · exact .kept hfl
  | @deliver s cs l₁ l₂ i r cause c₀ a c rs d hcomplete =>
    rcases List.mem_append.mp hfl with hfl | hfl
    · rcases List.mem_append.mp hfl with hfl | hfl
      · exact .kept (List.mem_append_left _ hfl)
      · exact .kept (List.mem_append_right _ (List.mem_cons_of_mem _ hfl))
    · obtain ⟨r', hr', rfl⟩ := mem_issue.mp hfl
      have hget : (l₁ ++ (⟨i, r, cause, c₀, some a⟩ : Flight ι C R A) :: l₂)[l₁.length]? =
          some ⟨i, r, cause, c₀, some a⟩ := by simp
      exact @Origin.completed _ _ _ _ _ _ _ _ P ⟨s, cs, _⟩ _ d _ _ _ _ _ hget rfl hcomplete hr'

/-- What becomes of a request in flight in a step. -/
inductive Fate (w w' : World ι S C R A) : Label ι O F D → Flight ι C R A → Prop
  /-- it stays in flight as it is -/
  | kept {l : Label ι O F D} {fl : Flight ι C R A} (h : fl ∈ w'.flights) : Fate w w' l fl
  /-- the server answers it -/
  | served {n : ℕ} {o : F} {fl : Flight ι C R A} (hget : w.flights[n]? = some fl)
      (hnone : fl.answer = none)
      (h : { fl with answer := some (P.serve w.server fl.request o).2 } ∈ w'.flights) :
      Fate w w' (.serve n o) fl
  /-- its completion runs, and puts its requests in flight -/
  | completed {n : ℕ} {d : D} {fl : Flight ι C R A} {a : A} {c : C} {rs : List R}
      (hget : w.flights[n]? = some fl) (ha : fl.answer = some a)
      (hcomplete : P.complete (w.clients fl.owner) fl.request a d = some (c, rs))
      (h : ∀ r ∈ rs, ⟨fl.owner, r, some fl.request, w.clients fl.owner, none⟩ ∈ w'.flights) :
      Fate w w' (.deliver n d) fl

/-- Every request in flight before a step has a fate. -/
theorem fate_of_step {w w' : World ι S C R A} {l : Label ι O F D} (h : P.step w l = some w')
    {fl : Flight ι C R A} (hfl : fl ∈ w.flights) : Fate P w w' l fl := by
  cases stepped_of_step P h with
  | call _ => exact .kept (List.mem_append_left _ hfl)
  | @serve s cs l₁ l₂ i r cause c o =>
    rcases mem_replaced ⟨i, r, cause, c, some (P.serve s r o).2⟩ hfl with rfl | hfl
    · exact .served (by simp) rfl (by simp)
    · exact .kept hfl
  | @deliver s cs l₁ l₂ i r cause c₀ a c rs d hcomplete =>
    rcases List.mem_append.mp hfl with hfl | hfl
    · exact .kept (List.mem_append_left _ (List.mem_append_left _ hfl))
    · rcases List.mem_cons.mp hfl with rfl | hfl
      · refine .completed (by simp) rfl hcomplete fun r' hr' => ?_
        exact List.mem_append_right _ (mem_issue.mpr ⟨r', hr', rfl⟩)
      · exact .kept (List.mem_append_left _ (List.mem_append_right _ hfl))

end Step

/-! ## Conditions on steps -/

/-- A condition on the calls of a run. -/
def OnCall (Q : World ι S C R A → ι → O → Prop) (w : World ι S C R A) : Label ι O F D → Prop
  | .call i op => Q w i op
  | _ => True

/-- A condition on the server steps of a run. -/
def OnServe (Q : World ι S C R A → Flight ι C R A → F → Prop) (w : World ι S C R A) :
    Label ι O F D → Prop
  | .serve n o => ∀ fl ∈ w.flights[n]?, Q w fl o
  | _ => True

/-- A condition on the completions of a run. -/
def OnDeliver (Q : World ι S C R A → Flight ι C R A → Prop) (w : World ι S C R A) :
    Label ι O F D → Prop
  | .deliver n _ => ∀ fl ∈ w.flights[n]?, Q w fl
  | _ => True

instance (Q : World ι S C R A → ι → O → Prop) [∀ w i op, Decidable (Q w i op)]
    (w : World ι S C R A) (l : Label ι O F D) : Decidable (OnCall Q w l) :=
  match l with
  | .call i op => inferInstanceAs (Decidable (Q w i op))
  | .serve _ _ => isTrue trivial
  | .deliver _ _ => isTrue trivial

instance (Q : World ι S C R A → Flight ι C R A → F → Prop) [∀ w fl o, Decidable (Q w fl o)]
    (w : World ι S C R A) (l : Label ι O F D) : Decidable (OnServe Q w l) :=
  match l with
  | .call _ _ => isTrue trivial
  | .serve n o => inferInstanceAs (Decidable (∀ fl ∈ w.flights[n]?, Q w fl o))
  | .deliver _ _ => isTrue trivial

instance (Q : World ι S C R A → Flight ι C R A → Prop) [∀ w fl, Decidable (Q w fl)]
    (w : World ι S C R A) (l : Label ι O F D) : Decidable (OnDeliver Q w l) :=
  match l with
  | .call _ _ => isTrue trivial
  | .serve _ _ => isTrue trivial
  | .deliver n _ => inferInstanceAs (Decidable (∀ fl ∈ w.flights[n]?, Q w fl))

/-! ## Invariants of one part of the world -/

section Invariants

variable [DecidableEq ι] {P : Service S C O R A F D}
  {Cond : World ι S C R A → Label ι O F D → Prop} {w₀ w : World ι S C R A}

/-- Only server steps change the server. -/
theorem server_of_step {w w' : World ι S C R A} {l : Label ι O F D} (h : P.step w l = some w') :
    (w'.server = w.server ∧ ∀ n o, l ≠ .serve n o) ∨
      ∃ n o fl, l = .serve n o ∧ w.flights[n]? = some fl ∧
        { fl with answer := some (P.serve w.server fl.request o).2 } ∈ w'.flights ∧
        w'.server = (P.serve w.server fl.request o).1 := by
  cases stepped_of_step P h with
  | call _ => exact .inl ⟨rfl, by simp⟩
  | @serve s cs l₁ l₂ i r cause c o =>
    have hget : (l₁ ++ (⟨i, r, cause, c, none⟩ : Flight ι C R A) :: l₂)[l₁.length]? =
        some ⟨i, r, cause, c, none⟩ := by simp
    exact .inr ⟨_, o, _, rfl, hget, by simp, rfl⟩
  | deliver _ _ => exact .inl ⟨rfl, by simp⟩

/-- The server after a server step. -/
theorem server_of_serve {w w' : World ι S C R A} {n : ℕ} {o : F} {fl : Flight ι C R A}
    (h : P.step w (.serve n o) = some w') (hget : w.flights[n]? = some fl) :
    w'.server = (P.serve w.server fl.request o).1 := by
  rcases server_of_step h with ⟨-, hne⟩ | ⟨n', o', fl', heq, hget', -, hserver⟩
  · exact absurd rfl (hne n o)
  · cases heq
    rw [hget] at hget'
    cases hget'
    exact hserver

/-- A completion leaves the server alone. -/
theorem server_of_deliver {w w' : World ι S C R A} {n : ℕ} {d : D}
    (h : P.step w (.deliver n d) = some w') : w'.server = w.server := by
  rcases server_of_step h with ⟨hserver, -⟩ | ⟨n', o', fl', heq, -⟩
  · exact hserver
  · cases heq

/-- A client changes by its own calls and by the completions of its own requests. -/
theorem client_of_step {w w' : World ι S C R A} {l : Label ι O F D} (h : P.step w l = some w')
    (j : ι) :
    (w'.clients j = w.clients j ∧
        ∀ n d fl, l = .deliver n d → w.flights[n]? = some fl → fl.owner ≠ j) ∨
      (∃ op rs, l = .call j op ∧ P.call (w.clients j) op = some (w'.clients j, rs)) ∨
      ∃ n d fl a rs, l = .deliver n d ∧ w.flights[n]? = some fl ∧ fl.owner = j ∧
        fl.answer = some a ∧ P.complete (w.clients j) fl.request a d = some (w'.clients j, rs) := by
  cases stepped_of_step P h with
  | @call s cs fs i op c rs hcall =>
    by_cases hj : j = i
    · subst hj
      exact .inr (.inl ⟨op, rs, rfl, by simpa using hcall⟩)
    · exact .inl ⟨by simp [hj], by simp⟩
  | serve _ => exact .inl ⟨rfl, by simp⟩
  | @deliver s cs l₁ l₂ i r cause c₀ a c rs d hcomplete =>
    have hget : (l₁ ++ (⟨i, r, cause, c₀, some a⟩ : Flight ι C R A) :: l₂)[l₁.length]? =
        some ⟨i, r, cause, c₀, some a⟩ := by simp
    by_cases hj : j = i
    · subst hj
      exact .inr (.inr ⟨_, d, _, a, rs, rfl, hget, rfl, rfl, by simpa using hcomplete⟩)
    · refine .inl ⟨by simp [hj], fun n d' fl hl hfl => ?_⟩
      cases hl
      rw [hget] at hfl
      cases hfl
      exact Ne.symm hj

/-- An invariant of the server is checked on server steps. -/
theorem server_invariant {I : S → Prop} (h : Run.Reaches P.step Cond w₀ w) (h₀ : I w₀.server)
    (hserve : ∀ w n fl o, Run.Reaches P.step Cond w₀ w → I w.server → w.flights[n]? = some fl →
      Cond w (.serve n o) → I (P.serve w.server fl.request o).1) : I w.server := by
  refine h.invariant (I := fun w => I w.server) h₀ fun w l w' hreach hI hC hstep => ?_
  rcases server_of_step hstep with ⟨hserver, -⟩ | ⟨n, o, fl, rfl, hget, -, hserver⟩
  · rw [hserver]
    exact hI
  · rw [hserver]
    exact hserve _ _ _ o hreach hI hget hC

/-- An invariant of the clients is checked on calls and completions; it then also holds of the
states in which the requests in flight were issued. -/
theorem client_invariant {Q : C → Prop} (h : Run.Reaches P.step Cond w₀ w)
    (h₀ : ∀ i, Q (w₀.clients i)) (hflights : w₀.flights = [])
    (hcall : ∀ w i op c rs, Run.Reaches P.step Cond w₀ w → Q (w.clients i) →
      Cond w (.call i op) → P.call (w.clients i) op = some (c, rs) → Q c)
    (hcomplete : ∀ w n d fl a c rs, Run.Reaches P.step Cond w₀ w → Q (w.clients fl.owner) →
      Cond w (.deliver n d) → w.flights[n]? = some fl → fl.answer = some a →
      P.complete (w.clients fl.owner) fl.request a d = some (c, rs) → Q c) :
    (∀ i, Q (w.clients i)) ∧ ∀ fl ∈ w.flights, Q fl.issuedIn := by
  refine h.invariant (I := fun w => (∀ i, Q (w.clients i)) ∧ ∀ fl ∈ w.flights, Q fl.issuedIn)
    ⟨h₀, by simp [hflights]⟩ fun w l w' hreach hI hC hstep => ⟨fun j => ?_, fun fl hfl => ?_⟩
  · rcases client_of_step hstep j with
      ⟨hsame, -⟩ | ⟨op, rs, rfl, hcall'⟩ | ⟨n, d, fl, a, rs, rfl, hget, rfl, ha, hcomplete'⟩
    · rw [hsame]
      exact hI.1 j
    · exact hcall _ _ _ _ _ hreach (hI.1 j) hC hcall'
    · exact hcomplete _ _ _ _ _ _ _ hreach (hI.1 _) hC hget ha hcomplete'
  · -- a request carries the state of its client right before the step that issued it
    cases origin_of_step P hstep hfl with
    | kept hmem => exact hI.2 fl hmem
    | called _ _ => exact hI.1 _
    | @served n o fl₀ hget _ => exact hI.2 fl₀ (List.mem_of_getElem? hget)
    | completed _ _ _ _ => exact hI.1 _

/-- An invariant of the requests in flight is checked where they come from. -/
theorem flight_invariant {J : Flight ι C R A → Prop} (h : Run.Reaches P.step Cond w₀ w)
    (hflights : w₀.flights = [])
    (hcalled : ∀ w i op c rs r, Run.Reaches P.step Cond w₀ w → Cond w (.call i op) →
      P.call (w.clients i) op = some (c, rs) → r ∈ rs → J ⟨i, r, none, w.clients i, none⟩)
    (hserved : ∀ w n o fl, Run.Reaches P.step Cond w₀ w → Cond w (.serve n o) →
      w.flights[n]? = some fl → fl.answer = none → J fl →
      J { fl with answer := some (P.serve w.server fl.request o).2 })
    (hcompleted : ∀ w n d fl a c rs r, Run.Reaches P.step Cond w₀ w → Cond w (.deliver n d) →
      w.flights[n]? = some fl → J fl → fl.answer = some a →
      P.complete (w.clients fl.owner) fl.request a d = some (c, rs) → r ∈ rs →
      J ⟨fl.owner, r, some fl.request, w.clients fl.owner, none⟩) :
    ∀ fl ∈ w.flights, J fl := by
  refine h.invariant (I := fun w => ∀ fl ∈ w.flights, J fl) (by simp [hflights])
    fun w l w' hreach hI hC hstep fl hfl => ?_
  cases origin_of_step P hstep hfl with
  | kept hmem => exact hI fl hmem
  | called hcall hr => exact hcalled _ _ _ _ _ _ hreach hC hcall hr
  | @served n o fl₀ hget hnone =>
    exact hserved _ _ _ fl₀ hreach hC hget hnone (hI fl₀ (List.mem_of_getElem? hget))
  | @completed n d fl₀ a c rs r hget ha hcomplete hr =>
    exact hcompleted _ _ _ _ _ _ _ _ hreach hC hget (hI fl₀ (List.mem_of_getElem? hget)) ha
      hcomplete hr

/-- Invariants of the server, of the clients and of the requests in flight that rest on each
other are checked together. -/
theorem joint_invariant {I : S → Prop} {Q : C → Prop} {J : Flight ι C R A → Prop}
    (h : Run.Reaches P.step Cond w₀ w) (hserver₀ : I w₀.server) (hclients₀ : ∀ i, Q (w₀.clients i))
    (hflights : w₀.flights = [])
    (hserve : ∀ w n o fl, Run.Reaches P.step Cond w₀ w → I w.server → J fl →
      w.flights[n]? = some fl → Cond w (.serve n o) →
      I (P.serve w.server fl.request o).1 ∧
        J { fl with answer := some (P.serve w.server fl.request o).2 })
    (hcall : ∀ w i op c rs, Run.Reaches P.step Cond w₀ w → Q (w.clients i) →
      Cond w (.call i op) → P.call (w.clients i) op = some (c, rs) →
      Q c ∧ ∀ r ∈ rs, J ⟨i, r, none, w.clients i, none⟩)
    (hcomplete : ∀ w n d fl a c rs, Run.Reaches P.step Cond w₀ w → Q (w.clients fl.owner) → J fl →
      Cond w (.deliver n d) → w.flights[n]? = some fl → fl.answer = some a →
      P.complete (w.clients fl.owner) fl.request a d = some (c, rs) →
      Q c ∧ ∀ r ∈ rs, J ⟨fl.owner, r, some fl.request, w.clients fl.owner, none⟩) :
    I w.server ∧ (∀ i, Q (w.clients i)) ∧ ∀ fl ∈ w.flights, J fl := by
  refine h.invariant
    (I := fun w => I w.server ∧ (∀ i, Q (w.clients i)) ∧ ∀ fl ∈ w.flights, J fl)
    ⟨hserver₀, hclients₀, by simp [hflights]⟩ ?_
  rintro w l w' hreach ⟨hI, hQ, hJ⟩ hC hstep
  refine ⟨?_, fun j => ?_, fun fl hfl => ?_⟩
  · rcases server_of_step hstep with ⟨hsame, -⟩ | ⟨n, o, fl, rfl, hget, -, hserver⟩
    · rw [hsame]
      exact hI
    · rw [hserver]
      exact (hserve w n o fl hreach hI (hJ fl (List.mem_of_getElem? hget)) hget hC).1
  · rcases client_of_step hstep j with
      ⟨hsame, -⟩ | ⟨op, rs, rfl, hcall'⟩ | ⟨n, d, fl, a, rs, rfl, hget, rfl, ha, hcomplete'⟩
    · rw [hsame]
      exact hQ j
    · exact (hcall _ _ _ _ _ hreach (hQ j) hC hcall').1
    · exact (hcomplete _ _ _ _ _ _ _ hreach (hQ _) (hJ fl (List.mem_of_getElem? hget)) hC hget ha
        hcomplete').1
  · cases origin_of_step P hstep hfl with
    | kept hmem => exact hJ fl hmem
    | called hcall' hr => exact (hcall _ _ _ _ _ hreach (hQ _) hC hcall').2 _ hr
    | @served n o fl₀ hget _ =>
      exact (hserve w n o fl₀ hreach hI (hJ fl₀ (List.mem_of_getElem? hget)) hget hC).2
    | @completed n d fl₀ a c rs r hget ha hcomplete' hr =>
      exact (hcomplete _ _ _ _ _ _ _ hreach (hQ _) (hJ fl₀ (List.mem_of_getElem? hget)) hC hget ha
        hcomplete').2 _ hr

end Invariants

/-! ## Histories -/

section Histories

variable [DecidableEq ι] {P : Service S C O R A F D} {η : Type}

/-- A history of the requests the server has taken. -/
def served (f : F → Flight ι C R A → η → η) (h : η) (w : World ι S C R A) : Label ι O F D → η
  | .serve n o =>
    match w.flights[n]? with
    | some fl => f o fl h
    | none => h
  | _ => h

/-- For each client, a history of the answers it has taken. -/
def delivered (f : Flight ι C R A → η → η) (h : ι → η) (w : World ι S C R A) (l : Label ι O F D)
    (i : ι) : η :=
  match l with
  | .deliver n _ =>
    match w.flights[n]? with
    | some fl => if fl.owner = i then f fl (h i) else h i
    | none => h i
  | _ => h i

/-- Only the completions of its own requests change the history of a client. -/
theorem delivered_of_not_owner {f : Flight ι C R A → η → η} {h : ι → η} {w : World ι S C R A}
    {l : Label ι O F D} {j : ι}
    (hl : ∀ n d fl, l = .deliver n d → w.flights[n]? = some fl → fl.owner ≠ j) :
    delivered f h w l j = h j := by
  unfold delivered
  split
  · split
    · rename_i fl hget
      exact if_neg (hl _ _ fl rfl hget)
    · rfl
  · rfl

/-- The completion of a request adds to the history of its owner. -/
theorem delivered_of_owner {f : Flight ι C R A → η → η} {h : ι → η} {w : World ι S C R A} {n : ℕ}
    {d : D} {fl : Flight ι C R A} (hget : w.flights[n]? = some fl) :
    delivered f h w (.deliver n d : Label ι O F D) fl.owner = f fl (h fl.owner) := by
  simp only [delivered, hget, if_true]

/-- An invariant of the server and the history of its requests is checked on server steps. -/
theorem served_invariant {f : F → Flight ι C R A → η → η}
    {Cond : World ι S C R A × η → Label ι O F D → Prop} {s₀ s : World ι S C R A × η}
    {Q : S → η → Prop} (h : Run.Reaches (Run.record P.step (served f)) Cond s₀ s)
    (h₀ : Q s₀.1.server s₀.2)
    (hserve : ∀ s n fl o, Run.Reaches (Run.record P.step (served f)) Cond s₀ s →
      Q s.1.server s.2 → s.1.flights[n]? = some fl → Cond s (.serve n o) →
      Q (P.serve s.1.server fl.request o).1 (f o fl s.2)) : Q s.1.server s.2 := by
  refine h.invariant (I := fun s => Q s.1.server s.2) h₀ fun s l s' hreach hQ hC hstep => ?_
  obtain ⟨hstep, hhist⟩ := Run.record_eq_some.mp hstep
  rcases server_of_step hstep with ⟨hserver, hne⟩ | ⟨n, o, fl, rfl, hget, -, hserver⟩
  · have hsame : s'.2 = s.2 := by
      rw [hhist]
      unfold served
      split
      · exact absurd rfl (hne _ _)
      · rfl
    rw [hserver, hsame]
    exact hQ
  · have hnew : s'.2 = f o fl s.2 := by
      rw [hhist]
      simp only [served, hget]
    rw [hserver, hnew]
    exact hserve s n fl o hreach hQ hget hC

/-- An invariant of the clients and the histories of their answers is checked on calls and
completions. -/
theorem delivered_invariant {f : Flight ι C R A → η → η}
    {Cond : World ι S C R A × (ι → η) → Label ι O F D → Prop} {s₀ s : World ι S C R A × (ι → η)}
    {Q : C → η → Prop} (h : Run.Reaches (Run.record P.step (delivered f)) Cond s₀ s)
    (h₀ : ∀ i, Q (s₀.1.clients i) (s₀.2 i))
    (hcall : ∀ s i op c rs, Q (s.1.clients i) (s.2 i) → Cond s (.call i op) →
      P.call (s.1.clients i) op = some (c, rs) → Q c (s.2 i))
    (hcomplete : ∀ s n d fl a c rs, Run.Reaches (Run.record P.step (delivered f)) Cond s₀ s →
      Q (s.1.clients fl.owner) (s.2 fl.owner) → Cond s (.deliver n d) →
      s.1.flights[n]? = some fl → fl.answer = some a →
      P.complete (s.1.clients fl.owner) fl.request a d = some (c, rs) →
      Q c (f fl (s.2 fl.owner))) : ∀ i, Q (s.1.clients i) (s.2 i) := by
  refine h.invariant (I := fun s => ∀ i, Q (s.1.clients i) (s.2 i)) h₀
    fun s l s' hreach hQ hC hstep j => ?_
  obtain ⟨hstep, hhist⟩ := Run.record_eq_some.mp hstep
  rw [hhist]
  rcases client_of_step hstep j with
    ⟨hsame, hother⟩ | ⟨op, rs, rfl, hcall'⟩ | ⟨n, d, fl, a, rs, rfl, hget, rfl, ha, hcomplete'⟩
  · rw [hsame, delivered_of_not_owner hother]
    exact hQ j
  · rw [delivered_of_not_owner (by simp)]
    exact hcall s j op _ rs (hQ j) hC hcall'
  · rw [delivered_of_owner hget]
    exact hcomplete s n d fl a _ rs hreach (hQ _) hC hget ha hcomplete'

end Histories

end Async
