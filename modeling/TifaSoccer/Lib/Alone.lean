import TifaSoccer.Lib.Async

/-!
# One client alone

What a call does when nobody else acts until everything it has started has ended. The requests
that were in flight before the call stay where they are. When no call and no completion issues
more than one request (`Sequential`), such a run is a chain: a request is served, its completion
issues the next one, and so on. `Settled` is that chain as a relation between the server and the
client before and after it, and `runsAlone_iff` says that the runs of the system are these chains.
-/

namespace Async

variable {ι S C O R A F D : Type}

/-- No call and no completion issues more than one request. -/
structure Sequential (P : Service S C O R A F D) : Prop where
  call : ∀ {c op c' rs}, P.call c op = some (c', rs) → rs.length ≤ 1
  complete : ∀ {c r a d c' rs}, P.complete c r a d = some (c', rs) → rs.length ≤ 1

/-- Requests are served and completed one after the other until none is left; `ok` says which
outcomes the environment picks. -/
inductive Settled (P : Service S C O R A F D) (ok : F → Prop) : S → C → List R → S → C → Prop
  | quiet (s : S) (c : C) : Settled P ok s c [] s c
  | turn {s s' : S} {c c' c'' : C} {r : R} {rs : List R} {o : F} {d : D} (ho : ok o)
      (hcomplete : P.complete c r (P.serve s r o).2 d = some (c', rs))
      (hrest : Settled P ok (P.serve s r o).1 c' rs s' c'') : Settled P ok s c [r] s' c''

/-- Only the requests from index `k` on are served and completed, and nobody makes a call. -/
def Alone (k : ℕ) (ok : F → Prop) (_ : World ι S C R A) : Label ι O F D → Prop
  | .call _ _ => False
  | .serve n o => k ≤ n ∧ ok o
  | .deliver n _ => k ≤ n

section Runs

variable [DecidableEq ι] (P : Service S C O R A F D) (ok : F → Prop)

/-- Client `i` calls `op`, and everything the call starts runs to its end while all others wait. -/
def RunsAlone (i : ι) (op : O) (w w' : World ι S C R A) : Prop :=
  ∃ w₁, P.step w (.call i op) = some w₁ ∧
    Run.Reaches P.step (Alone w.flights.length ok) w₁ w' ∧ w'.flights.length = w.flights.length

variable {P ok}

/-- Nothing is left to settle. -/
theorem settled_nil {s s' : S} {c c' : C} : Settled P ok s c [] s' c' ↔ s' = s ∧ c' = c := by
  constructor
  · rintro ⟨⟩
    exact ⟨rfl, rfl⟩
  · rintro ⟨rfl, rfl⟩
    exact .quiet _ _

/-- One request is served and completed, then what it issues. -/
theorem settled_singleton {s s' : S} {c c' : C} {r : R} :
    Settled P ok s c [r] s' c' ↔ ∃ o d c₁ rs, ok o ∧
      P.complete c r (P.serve s r o).2 d = some (c₁, rs) ∧
      Settled P ok (P.serve s r o).1 c₁ rs s' c' := by
  constructor
  · intro h
    cases h with
    | turn ho hcomplete hrest => exact ⟨_, _, _, _, ho, hcomplete, hrest⟩
  · rintro ⟨o, d, c₁, rs, ho, hcomplete, hrest⟩
    exact .turn ho hcomplete hrest

/-- A turn that goes the same way whatever the environment picks. -/
theorem settled_singleton_of_forall [Nonempty D] {s s₁ s' : S} {c c₁ c' : C} {r : R} {a : A}
    {rs : List R} (hok : ∃ o, ok o) (hserve : ∀ o, ok o → P.serve s r o = (s₁, a))
    (hcomplete : ∀ d, P.complete c r a d = some (c₁, rs)) :
    Settled P ok s c [r] s' c' ↔ Settled P ok s₁ c₁ rs s' c' := by
  rw [settled_singleton]
  constructor
  · rintro ⟨o, d, c₂, rs₂, ho, hcompleted, hrest⟩
    rw [hserve o ho] at hcompleted hrest
    cases (hcomplete d).symm.trans hcompleted
    exact hrest
  · intro hrest
    obtain ⟨o, ho⟩ := hok
    obtain ⟨d⟩ := ‹Nonempty D›
    refine ⟨o, d, c₁, rs, ho, ?_, ?_⟩
    · rw [hserve o ho]
      exact hcomplete d
    · rw [hserve o ho]
      exact hrest

/-- A chain that ends when failures are excluded ends when they are not. -/
theorem Settled.mono {ok' : F → Prop} (hok : ∀ o, ok o → ok' o) {s s' : S} {c c' : C}
    {rs : List R} (h : Settled P ok s c rs s' c') : Settled P ok' s c rs s' c' := by
  induction h with
  | quiet s c => exact .quiet s c
  | turn ho hcomplete _ ih => exact .turn (hok _ ho) hcomplete ih

/-- What every turn of a chain keeps holds at its end; `J` is what is known of its requests. -/
theorem Settled.invariant {I : S → C → Prop} {J : R → Prop} {s s' : S} {c c' : C} {rs : List R}
    (h : Settled P ok s c rs s' c') (hI : I s c) (hJ : ∀ r ∈ rs, J r)
    (hturn : ∀ s c r o d c' rs, I s c → J r → ok o →
      P.complete c r (P.serve s r o).2 d = some (c', rs) →
      I (P.serve s r o).1 c' ∧ ∀ r' ∈ rs, J r') : I s' c' := by
  induction h with
  | quiet s c => exact hI
  | turn ho hcomplete _ ih =>
    obtain ⟨hI', hJ'⟩ := hturn _ _ _ _ _ _ _ hI (hJ _ (List.mem_singleton_self _)) ho hcomplete
    exact ih hI' hJ'

/-- A chain depends on how the requests in it are served; `J` is what is known of them. -/
theorem Settled.serve_congr {serve : S → R → F → S × A} {J : R → Prop} {s s' : S} {c c' : C}
    {rs : List R} (h : Settled P ok s c rs s' c') (hJ : ∀ r ∈ rs, J r)
    (hserve : ∀ s r o, J r → serve s r o = P.serve s r o)
    (hissues : ∀ c r a d c' rs, J r → P.complete c r a d = some (c', rs) → ∀ r' ∈ rs, J r') :
    Settled { P with serve := serve } ok s c rs s' c' := by
  induction h with
  | quiet s c => exact .quiet s c
  | @turn s s' c c' c'' r rs o d ho hcomplete _ ih =>
    have hr : J r := hJ r (List.mem_singleton_self r)
    have hrest := ih (hissues _ _ _ _ _ _ hr hcomplete)
    rw [← hserve s r o hr] at hcomplete hrest
    exact .turn ho hcomplete hrest

/-- The request that has just been issued is the last one. -/
private theorem getElem?_trailing {α : Type} {fs : List α} {x y : α} {n : ℕ}
    (hn : fs.length ≤ n) (h : (fs ++ [x])[n]? = some y) : n = fs.length ∧ y = x := by
  rw [List.getElem?_append_right hn, List.getElem?_singleton] at h
  split_ifs at h with hzero
  · cases h
    exact ⟨by omega, rfl⟩

/-- A step alone needs a request of the call in flight. -/
private theorem not_step_alone {fs : List (Flight ι C R A)} {w w' : World ι S C R A}
    {l : Label ι O F D} (hfs : w.flights = fs) (hl : Alone fs.length ok w l) :
    P.step w l ≠ some w' := by
  intro hstep
  cases l with
  | call j op => exact hl
  | serve n o =>
    rw [Service.step, hfs, List.getElem?_eq_none hl.1] at hstep
    cases hstep
  | deliver n d =>
    rw [Service.step, hfs, List.getElem?_eq_none hl] at hstep
    cases hstep

/-- With one request of the call in flight, a step alone serves it or runs its completion. -/
private theorem step_alone {fs : List (Flight ι C R A)} {fl : Flight ι C R A}
    {w w' : World ι S C R A} {l : Label ι O F D} (hfs : w.flights = fs ++ [fl])
    (hl : Alone fs.length ok w l) (hstep : P.step w l = some w') :
    (∃ o, ok o ∧ fl.answer = none ∧ w' = ⟨(P.serve w.server fl.request o).1, w.clients,
        fs ++ [{ fl with answer := some (P.serve w.server fl.request o).2 }]⟩) ∨
      ∃ a d c rs, fl.answer = some a ∧
        P.complete (w.clients fl.owner) fl.request a d = some (c, rs) ∧
        w' = ⟨w.server, Function.update w.clients fl.owner c,
          fs ++ issue fl.owner (some fl.request) (w.clients fl.owner) rs⟩ := by
  obtain ⟨s, cs, flights⟩ := w
  simp only at hfs
  subst hfs
  cases l with
  | call j op => cases hl
  | serve n o =>
    obtain ⟨hn, ho⟩ := hl
    simp only [Service.step] at hstep
    split at hstep
    · rename_i hget
      obtain ⟨rfl, rfl⟩ := getElem?_trailing hn hget
      cases hstep
      exact .inl ⟨o, ho, rfl, by simp⟩
    · cases hstep
  | deliver n d =>
    simp only [Service.step] at hstep
    split at hstep
    · rename_i hget
      obtain ⟨rfl, rfl⟩ := getElem?_trailing hl hget
      obtain ⟨⟨c, rs⟩, hcomplete, rfl⟩ := Option.map_eq_some_iff.mp hstep
      refine .inr ⟨_, d, c, rs, rfl, hcomplete, ?_⟩
      rw [List.eraseIdx_append_of_length_le (Nat.le_refl _), Nat.sub_self,
        List.eraseIdx_cons_zero, List.append_nil]
    · cases hstep

/-- Where a run alone can be, and how it ends from there: nothing of the call is in flight, its
one request waits for the server, or it waits for its completion. -/
private theorem settled_of_reaches (hP : Sequential P) {i : ι} {fs : List (Flight ι C R A)}
    {w w' : World ι S C R A} (h : Run.Reaches P.step (Alone fs.length ok) w w')
    (hend : w'.flights.length = fs.length) :
    (w.flights = fs → w' = w) ∧
      (∀ r cause c₀, w.flights = fs ++ [⟨i, r, cause, c₀, none⟩] → ∃ s' c',
        Settled P ok w.server (w.clients i) [r] s' c' ∧
          w' = ⟨s', Function.update w.clients i c', fs⟩) ∧
      ∀ r cause c₀ a, w.flights = fs ++ [⟨i, r, cause, c₀, some a⟩] → ∃ d c rs s' c',
        P.complete (w.clients i) r a d = some (c, rs) ∧ Settled P ok w.server c rs s' c' ∧
          w' = ⟨s', Function.update w.clients i c', fs⟩ := by
  -- induction from the end of the run; each kind of state allows one kind of step
  induction h using Relation.ReflTransGen.head_induction_on with
  | refl =>
    refine ⟨fun _ => rfl, fun r cause c₀ hfs => ?_, fun r cause c₀ a hfs => ?_⟩
    · rw [hfs] at hend
      simp at hend
    · rw [hfs] at hend
      simp at hend
  | head hst _ ih =>
    obtain ⟨l, hl, hstep⟩ := hst
    obtain ⟨hquiet, hwaiting, hanswered⟩ := ih
    refine ⟨fun hfs => ?_, fun r cause c₀ hfs => ?_, fun r cause c₀ a hfs => ?_⟩
    · exact absurd hstep (not_step_alone hfs hl)
    · rcases step_alone hfs hl hstep with ⟨o, ho, -, rfl⟩ | ⟨_, _, _, _, habsurd, -⟩
      · obtain ⟨d, c, rs, s', c', hcomplete, hrest, rfl⟩ := hanswered r cause c₀ _ rfl
        exact ⟨s', c', .turn ho hcomplete hrest, rfl⟩
      · cases habsurd
    · rcases step_alone hfs hl hstep with ⟨_, _, habsurd, -⟩ | ⟨_, d, c, rs, ⟨⟩, hcomplete, rfl⟩
      · cases habsurd
      · -- the completion issues the next request, or the chain is over
        match rs, hP.complete hcomplete with
        | [], _ =>
          have hworld := hquiet (by simp [issue])
          refine ⟨d, c, [], _, c, hcomplete, .quiet _ c, ?_⟩
          rw [hworld]
          simp [issue]
        | [r'], _ =>
          obtain ⟨s', c', hrest, rfl⟩ := hwaiting r' (some r) _ rfl
          simp only [Function.update_self, Function.update_idem] at hrest ⊢
          exact ⟨d, c, [r'], s', c', hcomplete, hrest, rfl⟩

/-- A chain is a run of the system. -/
private theorem reaches_of_settled {i : ι} (fs : List (Flight ι C R A)) {s s' : S} {c c' : C}
    {rs : List R} (h : Settled P ok s c rs s' c') (cause : Option R) (c₀ : C) (cs : ι → C)
    (hc : cs i = c) :
    Run.Reaches P.step (Alone fs.length ok) ⟨s, cs, fs ++ issue i cause c₀ rs⟩
      ⟨s', Function.update cs i c', fs⟩ := by
  induction h generalizing cause c₀ cs with
  | quiet s c =>
    subst hc
    rw [Function.update_eq_self]
    simp only [issue, List.map_nil, List.append_nil]
    exact .refl _
  | @turn s s' c c' c'' r rs o d ho hcomplete _ ih =>
    subst hc
    have hserve : P.step ⟨s, cs, fs ++ issue i cause c₀ [r]⟩ (.serve fs.length o) =
        some ⟨(P.serve s r o).1, cs, fs ++ [⟨i, r, cause, c₀, some (P.serve s r o).2⟩]⟩ := by
      simp [Service.step, issue]
    have hdeliver : P.step
        ⟨(P.serve s r o).1, cs, fs ++ [⟨i, r, cause, c₀, some (P.serve s r o).2⟩]⟩
        (.deliver fs.length d) =
        some ⟨(P.serve s r o).1, Function.update cs i c', fs ++ issue i (some r) (cs i) rs⟩ := by
      simp [Service.step, hcomplete, List.eraseIdx_append_of_length_le (Nat.le_refl fs.length)]
    have hrest := ih (some r) (cs i) (Function.update cs i c') (Function.update_self ..)
    rw [Function.update_idem] at hrest
    refine Relation.ReflTransGen.head ⟨.serve fs.length o, ⟨Nat.le_refl _, ho⟩, hserve⟩ ?_
    exact Relation.ReflTransGen.head ⟨.deliver fs.length d, Nat.le_refl _, hdeliver⟩ hrest

/-- The runs of a call alone are the chains it starts. -/
theorem runsAlone_iff (hP : Sequential P) {i : ι} {op : O} {w w' : World ι S C R A} :
    RunsAlone P ok i op w w' ↔ ∃ c rs s' c', P.call (w.clients i) op = some (c, rs) ∧
      Settled P ok w.server c rs s' c' ∧ w' = ⟨s', Function.update w.clients i c', w.flights⟩ := by
  obtain ⟨s, cs, fs⟩ := w
  constructor
  · rintro ⟨w₁, hcall, hrun, hend⟩
    simp only [Service.step, Option.map_eq_some_iff] at hcall
    obtain ⟨⟨c, rs⟩, hcall, rfl⟩ := hcall
    obtain ⟨hquiet, hwaiting, -⟩ := settled_of_reaches hP (i := i) hrun hend
    have hlength := hP.call hcall
    rcases rs with _ | ⟨r, _ | ⟨r', rs⟩⟩
    · have hworld := hquiet (by simp [issue])
      refine ⟨c, [], s, c, hcall, .quiet s c, ?_⟩
      rw [hworld]
      simp [issue]
    · obtain ⟨s', c', hsettled, rfl⟩ := hwaiting r none (cs i) (by simp [issue])
      simp only [Function.update_self, Function.update_idem] at hsettled ⊢
      exact ⟨c, [r], s', c', hcall, hsettled, rfl⟩
    · simp at hlength
  · rintro ⟨c, rs, s', c', hcall, hsettled, rfl⟩
    refine ⟨_, by rw [Service.step, hcall]; rfl, ?_, rfl⟩
    have hrun := reaches_of_settled (i := i) fs hsettled none (cs i)
      (Function.update cs i c) (Function.update_self ..)
    rw [Function.update_idem] at hrun
    exact hrun

/-- A run in which nothing fails is a run in which something may fail. -/
theorem RunsAlone.mono (hP : Sequential P) {ok' : F → Prop} (hok : ∀ o, ok o → ok' o) {i : ι}
    {op : O} {w w' : World ι S C R A} (h : RunsAlone P ok i op w w') :
    RunsAlone P ok' i op w w' := by
  obtain ⟨c, rs, s', c', hcall, hsettled, hw'⟩ := (runsAlone_iff hP).mp h
  exact (runsAlone_iff hP).mpr ⟨c, rs, s', c', hcall, hsettled.mono hok, hw'⟩

/-! ## One call after the other -/

variable (P ok)

/-- Client `i` makes the calls one after the other, each when the one before has ended. -/
def ActsAlone (i : ι) : List O → World ι S C R A → World ι S C R A → Prop
  | [], w, w' => w' = w
  | op :: ops, w, w'' => ∃ w', RunsAlone P ok i op w w' ∧ ActsAlone i ops w' w''

/-- The calls come to an end, and always in a world that satisfies `Q`. -/
def EndsIn (i : ι) (ops : List O) (w : World ι S C R A) (Q : World ι S C R A → Prop) : Prop :=
  (∃ w', ActsAlone P ok i ops w w') ∧ ∀ w', ActsAlone P ok i ops w w' → Q w'

variable {P ok}

/-- The first call comes to an end, and the rest goes on from wherever it has ended. -/
theorem endsIn_cons {i : ι} {op : O} {ops : List O} {w : World ι S C R A}
    {Q : World ι S C R A → Prop} (hex : ∃ w', RunsAlone P ok i op w w')
    (h : ∀ w', RunsAlone P ok i op w w' → EndsIn P ok i ops w' Q) :
    EndsIn P ok i (op :: ops) w Q := by
  constructor
  · obtain ⟨w', hw'⟩ := hex
    obtain ⟨w'', hw''⟩ := (h w' hw').1
    exact ⟨w'', w', hw', hw''⟩
  · rintro w'' ⟨w', hw', hw''⟩
    exact (h w' hw').2 w'' hw''

/-- One operation ends in `Q` if it ends, and every end is in `Q`. -/
theorem endsIn_singleton {i : ι} {op : O} {w : World ι S C R A} {Q : World ι S C R A → Prop} :
    EndsIn P ok i [op] w Q ↔
      (∃ w', RunsAlone P ok i op w w') ∧ ∀ w', RunsAlone P ok i op w w' → Q w' := by
  simp [EndsIn, ActsAlone]

end Runs

end Async
