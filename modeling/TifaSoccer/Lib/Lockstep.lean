import Mathlib.Data.List.Forall2
import TifaSoccer.Lib.Async

/-!
# Two runs in lockstep

Two worlds of one service may differ in much and still agree in what decides where the runs go. An
`Agreement` says what that is: a relation between the servers, one between the clients, one between
the answers to a request, and what is known of the requests. When calls, server steps and
completions keep it (`Agrees`), then whatever labels one world can follow the other can follow too,
and the two agree at the end (`lockstep`).
-/

namespace Async

variable {ι S C O R A F D : Type}

/-- What two runs have in common. -/
structure Agreement (S C R A : Type) where
  server : S → S → Prop
  client : C → C → Prop
  request : R → Prop
  answer : R → A → A → Prop

section Worlds

variable (G : Agreement S C R A)

/-- One request in flight in both worlds. -/
structure FlightsAgree (fl fl' : Flight ι C R A) : Prop where
  owner : fl'.owner = fl.owner
  request : fl'.request = fl.request
  known : G.request fl.request
  answer : Option.Rel (G.answer fl.request) fl.answer fl'.answer

structure WorldsAgree (w w' : World ι S C R A) : Prop where
  server : G.server w.server w'.server
  clients : ∀ i, G.client (w.clients i) (w'.clients i)
  flights : List.Forall₂ (FlightsAgree G) w.flights w'.flights

/-- The service keeps the agreement; `Q` says which calls are made. -/
structure Agrees (P : Service S C O R A F D) (Q : C → O → Prop) : Prop where
  permits : ∀ {c c' op}, G.client c c' → Q c op → Q c' op
  call : ∀ {c c' op c₁ rs}, G.client c c' → Q c op → P.call c op = some (c₁, rs) →
    ∃ c₁', P.call c' op = some (c₁', rs) ∧ G.client c₁ c₁' ∧ ∀ r ∈ rs, G.request r
  serve : ∀ {s s' r} (o : F), G.server s s' → G.request r →
    G.server (P.serve s r o).1 (P.serve s' r o).1 ∧
      G.answer r (P.serve s r o).2 (P.serve s' r o).2
  complete : ∀ {c c' r a a' d c₁ rs}, G.client c c' → G.request r → G.answer r a a' →
    P.complete c r a d = some (c₁, rs) →
    ∃ c₁', P.complete c' r a' d = some (c₁', rs) ∧ G.client c₁ c₁' ∧ ∀ r' ∈ rs, G.request r'

end Worlds

variable {G : Agreement S C R A}

/-- What both worlds issue agrees. -/
theorem flightsAgree_issue {i : ι} {cause cause' : Option R} {c c' : C} {rs : List R}
    (h : ∀ r ∈ rs, G.request r) :
    List.Forall₂ (FlightsAgree G) (issue i cause c rs) (issue i cause' c' rs) := by
  induction rs with
  | nil => exact .nil
  | cons r rs ih =>
    refine .cons ⟨rfl, rfl, h r (List.mem_cons_self ..), .none⟩ ?_
    exact ih fun r' hr' => h r' (List.mem_cons_of_mem _ hr')

/-- The list on the other side is split where this one is. -/
private theorem forall₂_split {α β : Type} {T : α → β → Prop} {l₁ l₂ : List α} {x : α}
    {l' : List β} (h : List.Forall₂ T (l₁ ++ x :: l₂) l') :
    ∃ l₁' x' l₂', l' = l₁' ++ x' :: l₂' ∧ l₁'.length = l₁.length ∧ List.Forall₂ T l₁ l₁' ∧
      T x x' ∧ List.Forall₂ T l₂ l₂' := by
  induction l₁ generalizing l' with
  | nil =>
    obtain ⟨x', l₂', hx, hl₂, rfl⟩ := List.forall₂_cons_left_iff.mp h
    exact ⟨[], x', l₂', rfl, rfl, .nil, hx, hl₂⟩
  | cons y l₁ ih =>
    obtain ⟨y', rest, hy, hrest, rfl⟩ := List.forall₂_cons_left_iff.mp h
    obtain ⟨l₁', x', l₂', rfl, hlength, hl₁, hx, hl₂⟩ := ih hrest
    exact ⟨y' :: l₁', x', l₂', rfl, by simp [hlength], .cons hy hl₁, hx, hl₂⟩

section Steps

variable [DecidableEq ι] {P : Service S C O R A F D} {Q : C → O → Prop}

/-- Two worlds agree after one client has changed in both. -/
theorem clients_update {cs cs' : ι → C} {c c' : C} (h : ∀ i, G.client (cs i) (cs' i))
    (hc : G.client c c') (i j : ι) :
    G.client (Function.update cs i c j) (Function.update cs' i c' j) := by
  by_cases hj : j = i
  · subst hj
    simpa using hc
  · simpa [hj] using h j

/-- One step of one world is a step of the other. -/
theorem agree_of_step (h : Agrees G P Q) {w w' w₁ : World ι S C R A} {l : Label ι O F D}
    (hw : WorldsAgree G w w') (hQ : OnCall (fun w i op => Q (w.clients i) op) w l)
    (hstep : P.step w l = some w₁) :
    ∃ w₁', P.step w' l = some w₁' ∧ WorldsAgree G w₁ w₁' := by
  obtain ⟨s', cs', fs'⟩ := w'
  obtain ⟨hserver, hclients, hflights⟩ := hw
  cases stepped_of_step P hstep with
  | @call s cs fs i op c rs hcall =>
    obtain ⟨c', hcall', hc, hrs⟩ := h.call (hclients i) hQ hcall
    refine ⟨_, step_of_stepped P (.call hcall'), hserver, clients_update hclients hc i, ?_⟩
    exact List.rel_append hflights (flightsAgree_issue hrs)
  | @serve s cs l₁ l₂ i r cause c o =>
    obtain ⟨l₁', fl', l₂', rfl, hlength, hl₁, hfl, hl₂⟩ := forall₂_split hflights
    obtain ⟨i', r', cause', c', a'⟩ := fl'
    obtain ⟨rfl, rfl, hknown, hanswer⟩ := hfl
    cases hanswer
    have hserve := h.serve o hserver hknown
    rw [← hlength]
    refine ⟨_, step_of_stepped P (.serve o), hserve.1, hclients, ?_⟩
    exact List.rel_append hl₁ (.cons ⟨rfl, rfl, hknown, .some hserve.2⟩ hl₂)
  | @deliver s cs l₁ l₂ i r cause c₀ a c rs d hcomplete =>
    obtain ⟨l₁', fl', l₂', rfl, hlength, hl₁, hfl, hl₂⟩ := forall₂_split hflights
    obtain ⟨i', r', cause', c', a'⟩ := fl'
    obtain ⟨rfl, rfl, hknown, hanswer⟩ := hfl
    cases hanswer with
    | some hanswer =>
      obtain ⟨c₁, hcomplete', hc, hrs⟩ := h.complete (hclients _) hknown hanswer hcomplete
      rw [← hlength]
      refine ⟨_, step_of_stepped P (.deliver d hcomplete'), hserver,
        clients_update hclients hc _, ?_⟩
      exact List.rel_append (List.rel_append hl₁ hl₂) (flightsAgree_issue hrs)

/-- From two worlds that agree, whatever labels one can follow the other can follow, and they agree
at the end. -/
theorem lockstep [∀ c op, Decidable (Q c op)] (h : Agrees G P Q) {w w' w₁ : World ι S C R A}
    {ls : List (Label ι O F D)} (hw : WorldsAgree G w w')
    (hrun : Run.exec (Run.restrict P.step (OnCall fun w i op => Q (w.clients i) op)) w ls =
      some w₁) :
    ∃ w₁', Run.exec (Run.restrict P.step (OnCall fun w i op => Q (w.clients i) op)) w' ls =
      some w₁' ∧ WorldsAgree G w₁ w₁' := by
  refine Run.exec_simulates ?_ hw hrun
  intro w w' l w₁ hw hstep
  unfold Run.restrict at hstep ⊢
  split_ifs at hstep with hQ
  have hQ' : OnCall (fun w i op => Q (w.clients i) op) w' l := by
    cases l with
    | call i op => exact h.permits (hw.clients i) hQ
    | serve n o => trivial
    | deliver n d => trivial
  rw [if_pos hQ']
  exact agree_of_step h hw hQ hstep

end Steps

end Async
