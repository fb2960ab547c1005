import TifaSoccer.Lib.Alone

/-!
# A front end of a service

A client may keep more than the service knows, for example what is typed but not sent; `part` is
what the service knows. If each call of the front end is one call of the service or leaves that part
as it is, and completions run as in the service (`FrontEnd`), then every run of the front end is a
run of the service (`FrontEnd.reaches`).
-/

namespace Async

variable {ι S C C' O O' R A F D : Type}

section Projection

variable (part : C' → C)

/-- A request in flight as the service sees it. -/
def Flight.project (fl : Flight ι C' R A) : Flight ι C R A :=
  ⟨fl.owner, fl.request, fl.cause, part fl.issuedIn, fl.answer⟩

/-- The world as the service sees it. -/
def World.project (w : World ι S C' R A) : World ι S C R A :=
  ⟨w.server, fun i => part (w.clients i), w.flights.map (Flight.project part)⟩

/-- The projection of what is issued. -/
theorem map_project_issue (i : ι) (cause : Option R) (c : C') (rs : List R) :
    (issue i cause c rs).map (Flight.project (A := A) part) =
      issue i cause (part c) rs := by
  simp only [issue, List.map_map]
  exact List.map_congr_left fun _ _ => rfl

/-- The projection of one client that changes. -/
theorem project_update [DecidableEq ι] (cs : ι → C') (i : ι) (c : C') :
    (fun j => part (Function.update cs i c j)) =
      Function.update (fun j => part (cs j)) i (part c) := by
  funext j
  by_cases hj : j = i
  · subst hj
    simp
  · simp [hj]

end Projection

/-- The clients of `P'` are clients of `P` with something in front of them; `Q` says which calls of
`P` they make. -/
structure FrontEnd (P' : Service S C' O' R A F D) (P : Service S C O R A F D)
    (Q : C → O → Prop) (part : C' → C) : Prop where
  call : ∀ {c op c₁ rs}, P'.call c op = some (c₁, rs) →
    (part c₁ = part c ∧ rs = []) ∨
      ∃ op', Q (part c) op' ∧ P.call (part c) op' = some (part c₁, rs)
  serve : P'.serve = P.serve
  complete : ∀ {c r a d c₁ rs}, P'.complete c r a d = some (c₁, rs) →
    P.complete (part c) r a d = some (part c₁, rs)

variable [DecidableEq ι] {P' : Service S C' O' R A F D} {P : Service S C O R A F D}
  {Q : C → O → Prop} {part : C' → C}

/-- One step of the front end is a step of the service, or is not seen there. -/
theorem FrontEnd.step (h : FrontEnd P' P Q part) {w w' : World ι S C' R A}
    {l : Label ι O' F D} (hstep : P'.step w l = some w') :
    w'.project part = w.project part ∨
      ∃ l', OnCall (fun w i op => Q (w.clients i) op) (w.project part) l' ∧
        P.step (w.project part) l' = some (w'.project part) := by
  cases stepped_of_step P' hstep with
  | @call s cs fs i op c rs hcall =>
    rcases h.call hcall with ⟨hsame, rfl⟩ | ⟨op', hQ, hcall'⟩
    · left
      simp only [World.project, project_update, hsame, issue, List.map_nil, List.append_nil]
      rw [Function.update_eq_self (f := fun j => part (cs j)) i]
    · refine .inr ⟨.call i op', hQ, ?_⟩
      simp only [World.project, project_update, List.map_append, map_project_issue]
      refine step_of_stepped P (.call ?_)
      exact hcall'
  | @serve s cs l₁ l₂ i r cause c o =>
    refine .inr ⟨.serve l₁.length o, trivial, ?_⟩
    simp only [World.project, List.map_append, List.map_cons, h.serve]
    have hlength : (l₁.map (Flight.project part)).length = l₁.length := List.length_map _
    rw [← hlength]
    exact step_of_stepped P (.serve o)
  | @deliver s cs l₁ l₂ i r cause c₀ a c rs d hcomplete =>
    refine .inr ⟨.deliver l₁.length d, trivial, ?_⟩
    simp only [World.project, project_update, List.map_append, List.map_cons, map_project_issue]
    have hlength : (l₁.map (Flight.project part)).length = l₁.length := List.length_map _
    rw [← hlength]
    refine step_of_stepped P (.deliver d ?_)
    exact h.complete hcomplete

/-- A front end issues no more requests than the service. -/
theorem FrontEnd.sequential (h : FrontEnd P' P Q part) (hP : Sequential P) : Sequential P' where
  call hcall := by
    rcases h.call hcall with ⟨-, rfl⟩ | ⟨op', -, hcall'⟩
    · simp
    · exact hP.call hcall'
  complete hcomplete := hP.complete (h.complete hcomplete)

/-- A run of the front end is a run of the service. -/
theorem FrontEnd.reaches (h : FrontEnd P' P Q part)
    {Cond : World ι S C' R A → Label ι O' F D → Prop} {w₀ w : World ι S C' R A}
    (hrun : Run.Reaches P'.step Cond w₀ w) :
    Run.Reaches P.step (OnCall fun w i op => Q (w.clients i) op) (w₀.project part)
      (w.project part) := by
  induction hrun with
  | refl => exact Run.Reaches.refl _
  | tail _ hst ih =>
    obtain ⟨l, -, hstep⟩ := hst
    rcases h.step hstep with hsame | ⟨l', hQ, hstep'⟩
    · rw [hsame]
      exact ih
    · exact ih.tail ⟨l', hQ, hstep'⟩

end Async
