import Mathlib.Data.List.InsertIdx
import TifaSoccer.Lib.Async

/-!
# What clients know, and since when

A client acts on answers it has taken some time ago. `Service.timed` is the same service with
history variables: the server keeps the list of the requests it has taken, an answer carries the
number of requests taken up to then, a client keeps the last answer it has stored, and a request
the answer whose completion issued it. No function of the service reads them, and `untimed_step`
says that they change no run.

`grown_since` is the rule for what an answer still says later on: a measure of the server that
grows by at most one, and only with certain requests, is at most what the answer has shown plus
the number of these requests taken since.
-/

namespace Async

variable {ι S C O R A F D : Type}

/-- An answer a client has taken, with the number of requests the server had taken by then. -/
structure Reading (R A : Type) where
  request : R
  answer : A
  moment : ℕ

/-- The entries of a list, newest first, that have come after the first `t` ones. -/
def since {E : Type} (log : List E) (t : ℕ) : List E := log.take (log.length - t)

/-- A new entry is one of those since. -/
theorem since_cons {E : Type} (e : E) {log : List E} {t : ℕ} (h : t ≤ log.length) :
    since (e :: log) t = e :: since log t := by
  rw [since, List.length_cons, Nat.succ_sub h, List.take_succ_cons, since]

/-! ## The service with its history -/

abbrev TimedFlight (ι C R A : Type) :=
  Flight ι (C × Option (Reading R A)) (R × Option (Reading R A)) (A × ℕ)

abbrev TimedWorld (ι S C R A F : Type) :=
  World ι (S × List (R × F)) (C × Option (Reading R A)) (R × Option (Reading R A)) (A × ℕ)

/-- A service with its history; `stores` tells the answers a client keeps. -/
def Service.timed (P : Service S C O R A F D) (stores : R → A → Bool) :
    Service (S × List (R × F)) (C × Option (Reading R A)) O (R × Option (Reading R A)) (A × ℕ) F
      D where
  call c op := (P.call c.1 op).map fun p => ((p.1, c.2), p.2.map fun r => (r, none))
  serve s r o :=
    (((P.serve s.1 r.1 o).1, (r.1, o) :: s.2), ((P.serve s.1 r.1 o).2, s.2.length + 1))
  complete c r a d :=
    (P.complete c.1 r.1 a.1 d).map fun p =>
      ((p.1, if stores r.1 a.1 then some ⟨r.1, a.1, a.2⟩ else c.2),
        p.2.map fun r' => (r', some ⟨r.1, a.1, a.2⟩))

/-- A world at the start of its history. -/
def World.timed (s : S) (cs : ι → C) : TimedWorld ι S C R A F :=
  ⟨(s, []), fun i => (cs i, none), []⟩

def Flight.untimed (fl : TimedFlight ι C R A) : Flight ι C R A :=
  ⟨fl.owner, fl.request.1, fl.cause.map Prod.fst, fl.issuedIn.1, fl.answer.map Prod.fst⟩

/-- Forget the history. -/
def World.untimed (w : TimedWorld ι S C R A F) : World ι S C R A :=
  ⟨w.server.1, fun i => (w.clients i).1, w.flights.map Flight.untimed⟩

/-- Forgetting the history of what is issued. -/
theorem issue_untimed (i : ι) (cause : Option (R × Option (Reading R A)))
    (c : C × Option (Reading R A)) (rs : List R) (x : Option (Reading R A)) :
    (issue i cause c (rs.map fun r => (r, x)) : List (TimedFlight ι C R A)).map Flight.untimed =
      issue i (cause.map Prod.fst) c.1 rs := by
  simp [issue, Flight.untimed, Function.comp_def]

section Steps

variable [DecidableEq ι] {P : Service S C O R A F D} {stores : R → A → Bool}

/-- Forgetting the history of one client that changes. -/
theorem update_untimed (cs : ι → C × Option (Reading R A)) (i : ι) (c : C)
    (x : Option (Reading R A)) :
    (fun j => (Function.update cs i (c, x) j).1) = Function.update (fun j => (cs j).1) i c := by
  funext j
  by_cases hj : j = i
  · subst hj
    simp
  · simp [hj]

/-- A call of the service with its history is a call of the service. It keeps the stored answer,
and what it issues was issued on no answer. -/
theorem timed_call {c c' : C × Option (Reading R A)} {op : O}
    {rs : List (R × Option (Reading R A))} (h : (P.timed stores).call c op = some (c', rs)) :
    ∃ rs₁, P.call c.1 op = some (c'.1, rs₁) ∧ c'.2 = c.2 ∧ rs = rs₁.map fun r => (r, none) := by
  simp only [Service.timed, Option.map_eq_some_iff] at h
  obtain ⟨⟨c₁, rs₁⟩, hcall, heq⟩ := h
  obtain ⟨rfl, rfl⟩ := Prod.mk.inj heq
  exact ⟨rs₁, hcall, rfl, rfl⟩

/-- A completion of the service with its history is a completion of the service. What it issues was
issued on its answer. -/
theorem timed_complete {c c' : C × Option (Reading R A)} {r : R × Option (Reading R A)}
    {a : A × ℕ} {d : D} {rs : List (R × Option (Reading R A))}
    (h : (P.timed stores).complete c r a d = some (c', rs)) :
    ∃ rs₁, P.complete c.1 r.1 a.1 d = some (c'.1, rs₁) ∧
      c'.2 = (if stores r.1 a.1 then some ⟨r.1, a.1, a.2⟩ else c.2) ∧
      rs = rs₁.map fun r' => (r', some ⟨r.1, a.1, a.2⟩) := by
  simp only [Service.timed, Option.map_eq_some_iff] at h
  obtain ⟨⟨c₁, rs₁⟩, hcomplete, heq⟩ := h
  obtain ⟨rfl, rfl⟩ := Prod.mk.inj heq
  exact ⟨rs₁, hcomplete, rfl, rfl⟩

/-- The history changes no step: the service with it takes the steps of the service. -/
theorem untimed_step (w : TimedWorld ι S C R A F) (l : Label ι O F D) :
    ((P.timed stores).step w l).map World.untimed = P.step w.untimed l := by
  obtain ⟨⟨s, log⟩, cs, fs⟩ := w
  cases l with
  | call i op =>
    simp only [Service.step, Service.timed, World.untimed]
    cases P.call (cs i).1 op with
    | none => rfl
    | some p => simp [World.untimed, update_untimed, issue_untimed]
  | serve n o =>
    simp only [Service.step, World.untimed, List.getElem?_map]
    cases hget : fs[n]? with
    | none => rfl
    | some fl =>
      obtain ⟨i, r, cause, c, a⟩ := fl
      cases a with
      | none => simp [Service.timed, World.untimed, Flight.untimed, List.map_set]
      | some a => rfl
  | deliver n d =>
    simp only [Service.step, World.untimed, List.getElem?_map]
    cases hget : fs[n]? with
    | none => rfl
    | some fl =>
      obtain ⟨i, r, cause, c, a⟩ := fl
      cases a with
      | none => rfl
      | some a =>
        simp only [Service.timed, Option.map_some, Flight.untimed]
        cases P.complete (cs i).1 r.1 a.1 d with
        | none => rfl
        | some p => simp [World.untimed, update_untimed, issue_untimed, List.eraseIdx_map]

/-- Forgetting the history leaves a run of the service. -/
theorem reaches_untimed {Cond : TimedWorld ι S C R A F → Label ι O F D → Prop}
    {Cond' : World ι S C R A → Label ι O F D → Prop} {w₀ w : TimedWorld ι S C R A F}
    (h : Run.Reaches (P.timed stores).step Cond w₀ w)
    (hCond : ∀ w l, Cond w l → Cond' w.untimed l) :
    Run.Reaches P.step Cond' w₀.untimed w.untimed := by
  induction h with
  | refl => exact Run.Reaches.refl _
  | tail _ hst ih =>
    obtain ⟨l, hl, hstep⟩ := hst
    exact ih.tail ⟨l, hCond _ _ hl,
      (untimed_step _ l).symm.trans (congrArg (Option.map World.untimed) hstep)⟩

/-! ## Readings -/

/-- The answers that are somewhere in a world: what a client has stored, when it issued a request
or now, the answer a request was issued on, and the answers still to be taken. -/
inductive World.Holds (w : TimedWorld ι S C R A F) (x : Reading R A) : Prop
  | stored (i : ι) (h : (w.clients i).2 = some x)
  | issued {fl : TimedFlight ι C R A} (hfl : fl ∈ w.flights) (h : fl.issuedIn.2 = some x)
  | caused {fl : TimedFlight ι C R A} (hfl : fl ∈ w.flights) (h : fl.request.2 = some x)
  | answered {fl : TimedFlight ι C R A} {a : A × ℕ} (hfl : fl ∈ w.flights)
      (h : fl.answer = some a) (hx : x = ⟨fl.request.1, a.1, a.2⟩)

omit [DecidableEq ι] in
/-- At the start there is no answer. -/
theorem not_holds_timed {s : S} {cs : ι → C} {x : Reading R A} :
    ¬ (World.timed s cs : TimedWorld ι S C R A F).Holds x := by
  intro h
  cases h with
  | stored i h => cases h
  | issued hfl _ => cases hfl
  | caused hfl _ => cases hfl
  | answered hfl _ _ => cases hfl

/-- The answers a client has stored come from its requests. -/
theorem holds_client {w w' : TimedWorld ι S C R A F} {l : Label ι O F D}
    (h : (P.timed stores).step w l = some w') {i : ι} {x : Reading R A}
    (hx : (w'.clients i).2 = some x) : w.Holds x := by
  rcases client_of_step h i with
    ⟨hsame, -⟩ | ⟨op, rs, -, hcall⟩ | ⟨n, d, fl, a, rs, -, hget, -, ha, hcomplete⟩
  · exact .stored i (hsame ▸ hx)
  · obtain ⟨-, -, hkept, -⟩ := timed_call hcall
    exact .stored i (hkept ▸ hx)
  · obtain ⟨-, -, hkept, -⟩ := timed_complete hcomplete
    rw [hkept] at hx
    split_ifs at hx with hstores
    · exact .answered (List.mem_of_getElem? hget) ha (Option.some.inj hx).symm
    · exact .stored i hx

/-- The answers in a world were there before the step, or one has just been given. -/
theorem holds_of_step {w w' : TimedWorld ι S C R A F} {l : Label ι O F D}
    (h : (P.timed stores).step w l = some w') {x : Reading R A} (hx : w'.Holds x) :
    w.Holds x ∨ ∃ n o fl, l = .serve n o ∧ w.flights[n]? = some fl ∧ fl.answer = none ∧
      x = ⟨fl.request.1, (P.serve w.server.1 fl.request.1 o).2, w.server.2.length + 1⟩ := by
  cases hx with
  | stored i hi => exact .inl (holds_client h hi)
  | issued hfl hx =>
    cases origin_of_step (P.timed stores) h hfl with
    | kept hmem => exact .inl (.issued hmem hx)
    | called _ _ => exact .inl (.stored _ hx)
    | served hget _ => exact .inl (.issued (List.mem_of_getElem? hget) hx)
    | completed _ _ _ _ => exact .inl (.stored _ hx)
  | caused hfl hx =>
    cases origin_of_step (P.timed stores) h hfl with
    | kept hmem => exact .inl (.caused hmem hx)
    | called hcall hr =>
      obtain ⟨rs₁, -, -, rfl⟩ := timed_call hcall
      obtain ⟨r, -, rfl⟩ := List.mem_map.mp hr
      cases hx
    | served hget _ => exact .inl (.caused (List.mem_of_getElem? hget) hx)
    | completed hget ha hcomplete hr =>
      obtain ⟨rs₁, -, -, rfl⟩ := timed_complete hcomplete
      obtain ⟨r, -, rfl⟩ := List.mem_map.mp hr
      exact .inl (.answered (List.mem_of_getElem? hget) ha (Option.some.inj hx).symm)
  | answered hfl ha hx =>
    cases origin_of_step (P.timed stores) h hfl with
    | kept hmem => exact .inl (.answered hmem ha hx)
    | called _ _ => cases ha
    | @served n o fl hget hnone =>
      cases ha
      exact .inr ⟨n, o, fl, rfl, hget, hnone, hx⟩
    | completed _ _ _ _ => cases ha

variable {Cond : TimedWorld ι S C R A F → Label ι O F D → Prop} {s₀ : S} {cs₀ : ι → C}
  {w : TimedWorld ι S C R A F}

/-- A relation of the server to the answers that are around is checked on server steps: for the
answer just given, and for the older ones. -/
theorem reading_invariant {I : S × List (R × F) → Reading R A → Prop}
    (h : Run.Reaches (P.timed stores).step Cond (World.timed s₀ cs₀) w)
    (hnew : ∀ w n o fl, Run.Reaches (P.timed stores).step Cond (World.timed s₀ cs₀) w →
      Cond w (.serve n o) → w.flights[n]? = some fl →
      I ((P.serve w.server.1 fl.request.1 o).1, (fl.request.1, o) :: w.server.2)
        ⟨fl.request.1, (P.serve w.server.1 fl.request.1 o).2, w.server.2.length + 1⟩)
    (hold : ∀ w n o fl x, Run.Reaches (P.timed stores).step Cond (World.timed s₀ cs₀) w →
      Cond w (.serve n o) → w.flights[n]? = some fl → I w.server x →
      I ((P.serve w.server.1 fl.request.1 o).1, (fl.request.1, o) :: w.server.2) x) :
    ∀ x, w.Holds x → I w.server x := by
  refine h.invariant (I := fun w => ∀ x, w.Holds x → I w.server x)
    (fun x hx => absurd hx not_holds_timed) ?_
  intro w l w' hreach hI hC hstep x hx
  rcases server_of_step hstep with ⟨hsame, hne⟩ | ⟨n, o, fl, rfl, hget, -, hserver⟩
  · rw [hsame]
    rcases holds_of_step hstep hx with hx | ⟨n, o, _, rfl, _⟩
    · exact hI x hx
    · exact absurd rfl (hne n o)
  · replace hserver : w'.server = ((P.serve w.server.1 fl.request.1 o).1,
      (fl.request.1, o) :: w.server.2) := hserver
    rw [hserver]
    rcases holds_of_step hstep hx with hx | ⟨n', o', fl', heq, hget', -, rfl⟩
    · exact hold w n o fl x hreach hC hget (hI x hx)
    · cases heq
      rw [hget] at hget'
      cases hget'
      exact hnew w n o fl hreach hC hget

/-- A measure of the server is at most what an answer has shown and the number of requests taken
since that may have added to it. `tells` picks the answers that show the measure. -/
theorem grown_since (f : S → ℕ) (adds : R × F → Bool) (tells : R → A → Prop) (shown : A → ℕ)
    (hgrow : ∀ s r o, f (P.serve s r o).1 ≤ f s + [(r, o)].countP adds)
    (hread : ∀ s r o, tells r (P.serve s r o).2 →
      f (P.serve s r o).1 ≤ shown (P.serve s r o).2)
    (h : Run.Reaches (P.timed stores).step Cond (World.timed s₀ cs₀) w) {x : Reading R A}
    (hx : w.Holds x) (htells : tells x.request x.answer) :
    f w.server.1 ≤ shown x.answer + (since w.server.2 x.moment).countP adds := by
  have hgrown : x.moment ≤ w.server.2.length ∧ (tells x.request x.answer →
      f w.server.1 ≤ shown x.answer + (since w.server.2 x.moment).countP adds) := by
    refine reading_invariant (I := fun s x => x.moment ≤ s.2.length ∧
      (tells x.request x.answer →
        f s.1 ≤ shown x.answer + (since s.2 x.moment).countP adds)) h ?_ ?_ x hx
    · intro w n o fl _ _ _
      refine ⟨Nat.le_refl _, fun htells => ?_⟩
      exact Nat.le_trans (hread _ _ _ htells) (Nat.le_add_right _ _)
    · rintro w n o fl x _ _ _ ⟨hle, hI⟩
      refine ⟨Nat.le_succ_of_le hle, fun htells => ?_⟩
      have hstep := hgrow w.server.1 fl.request.1 o
      have hbefore := hI htells
      show f (P.serve w.server.1 fl.request.1 o).1 ≤ _
      rw [since_cons _ hle, List.countP_cons]
      rw [List.countP_singleton] at hstep
      omega
  exact hgrown.2 htells

/-! ## Recorded histories -/

/-- An invariant of the server and a history of its requests is checked on server steps, whether
the history of the answers is there or not. -/
theorem served_invariant_timed {η : Type} {f : F → Flight ι C R A → η → η}
    {Cond : TimedWorld ι S C R A F × η → Label ι O F D → Prop}
    {s₀ s : TimedWorld ι S C R A F × η} {Q : S → η → Prop}
    (h : Run.Reaches (Run.record (P.timed stores).step fun h w l => served f h w.untimed l) Cond
      s₀ s) (h₀ : Q s₀.1.server.1 s₀.2)
    (hserve : ∀ s n fl o, Run.Reaches (Run.record (P.timed stores).step
        fun h w l => served f h w.untimed l) Cond s₀ s → Q s.1.server.1 s.2 →
      s.1.flights[n]? = some fl → Cond s (.serve n o) →
      Q (P.serve s.1.server.1 fl.request.1 o).1 (f o fl.untimed s.2)) : Q s.1.server.1 s.2 := by
  refine h.invariant (I := fun s => Q s.1.server.1 s.2) h₀ fun s l s' hreach hQ hC hstep => ?_
  obtain ⟨hstep, hhist⟩ := Run.record_eq_some.mp hstep
  rcases server_of_step hstep with ⟨hserver, hne⟩ | ⟨n, o, fl, rfl, hget, -, hserver⟩
  · have hsame : s'.2 = s.2 := by
      rw [hhist]
      unfold served
      split
      · exact absurd rfl (hne _ _)
      · rfl
    rw [hserver, hsame]
    exact hQ
  · have hget' : s.1.untimed.flights[n]? = some fl.untimed := by
      rw [World.untimed, List.getElem?_map, hget]
      rfl
    have hnew : s'.2 = f o fl.untimed s.2 := by
      rw [hhist]
      simp only [served, hget']
    have hserver : s'.1.server.1 = (P.serve s.1.server.1 fl.request.1 o).1 :=
      congrArg Prod.fst hserver
    rw [hserver, hnew]
    exact hserve s n fl o hreach hQ hget hC

end Steps

end Async
