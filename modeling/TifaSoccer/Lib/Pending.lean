import TifaSoccer.Lib.Async

/-!
# Counting requests in flight

`World.pending p i` is the number of requests of client `i` in flight that satisfy `p`. A call
adds the requests it issues, a completion takes its own request away and adds those it issues,
and a server step changes nothing. `pending_invariant` is the rule for what a client state, the
history of its answers and this number have to do with each other.

`World.waiting f` is what `f` makes of the requests of all clients that the server has not
answered. Calls and completions add theirs at the end, and a server step takes one away.
-/

namespace Async

variable {ι S C O R A F D η : Type} [DecidableEq ι]

/-- The number of requests of client `i` in flight that satisfy `p`. -/
def World.pending (w : World ι S C R A) (p : R → Bool) (i : ι) : ℕ :=
  w.flights.countP fun fl => decide (fl.owner = i) && p fl.request

/-- Of the wider kind there are at least as many in flight. -/
theorem pending_mono {w : World ι S C R A} {p q : R → Bool}
    (h : ∀ r, p r = true → q r = true) (i : ι) : w.pending p i ≤ w.pending q i := by
  refine List.countP_mono_left fun fl _ hfl => ?_
  simp only [Bool.and_eq_true, decide_eq_true_eq] at hfl ⊢
  exact ⟨hfl.1, h fl.request hfl.2⟩

/-- Requests are issued for one client. -/
theorem countP_issue (p : R → Bool) (i j : ι) (cause : Option R) (c : C) (rs : List R) :
    (issue i cause c rs : List (Flight ι C R A)).countP
        (fun fl => decide (fl.owner = j) && p fl.request) =
      if i = j then rs.countP p else 0 := by
  rw [issue, List.countP_map]
  split_ifs with h
  · exact List.countP_congr fun r _ => by simp [h]
  · exact List.countP_eq_zero.mpr fun r _ => by simp [h]

section Steps

variable {P : Service S C O R A F D}

/-- What a step means for client `j`. -/
inductive Turn (P : Service S C O R A F D) (w w' : World ι S C R A) (j : ι) :
    Label ι O F D → Prop
  /-- it takes no part in the step -/
  | idle {l : Label ι O F D} (hclient : w'.clients j = w.clients j)
      (hpending : ∀ p, w'.pending p j = w.pending p j)
      (hother : ∀ n d fl, l = .deliver n d → w.flights[n]? = some fl → fl.owner ≠ j) :
      Turn P w w' j l
  /-- it makes a call -/
  | called {op : O} {rs : List R} (hcall : P.call (w.clients j) op = some (w'.clients j, rs))
      (hpending : ∀ p, w'.pending p j = w.pending p j + rs.countP p) : Turn P w w' j (.call j op)
  /-- it takes an answer; `k` requests stay in flight -/
  | completed {n : ℕ} {d : D} {fl : Flight ι C R A} {a : A} {rs : List R}
      (hget : w.flights[n]? = some fl) (howner : fl.owner = j) (ha : fl.answer = some a)
      (hcomplete : P.complete (w.clients j) fl.request a d = some (w'.clients j, rs))
      (hpending : ∀ p, ∃ k, w.pending p j = k + [fl.request].countP p ∧
        w'.pending p j = k + rs.countP p) : Turn P w w' j (.deliver n d)

/-- Every step is a turn of each client, of one kind or the other. -/
theorem turn_of_step {w w' : World ι S C R A} {l : Label ι O F D} (h : P.step w l = some w')
    (j : ι) : Turn P w w' j l := by
  cases stepped_of_step P h with
  | @call s cs fs i op c rs hcall =>
    have hcount : ∀ p, World.pending ⟨s, Function.update cs i c, fs ++ issue i none (cs i) rs⟩ p j =
        World.pending ⟨s, cs, fs⟩ p j + if i = j then rs.countP p else 0 := by
      intro p
      simp only [World.pending, List.countP_append, countP_issue]
    by_cases hj : j = i
    · subst hj
      exact .called (by simpa using hcall) fun p => by rw [hcount, if_pos rfl]
    · refine .idle (by simp [hj]) (fun p => ?_) (by simp)
      rw [hcount, if_neg (Ne.symm hj), Nat.add_zero]
  | serve _ =>
    -- an answer does not change whose request it is
    exact .idle rfl (fun p => by simp [World.pending, List.countP_cons]) (by simp)
  | @deliver s cs l₁ l₂ i r cause c₀ a c rs d hcomplete =>
    have hget : (l₁ ++ (⟨i, r, cause, c₀, some a⟩ : Flight ι C R A) :: l₂)[l₁.length]? =
        some ⟨i, r, cause, c₀, some a⟩ := by simp
    by_cases hj : j = i
    · subst hj
      refine .completed hget rfl rfl (by simpa using hcomplete) fun p => ?_
      refine ⟨World.pending ⟨s, cs, l₁ ++ l₂⟩ p j, ?_, ?_⟩
      · simp only [World.pending, List.countP_append, List.countP_cons, List.countP_nil,
          decide_true, Bool.true_and]
        omega
      · simp only [World.pending, List.countP_append, countP_issue, if_true]
    · refine .idle (by simp [hj]) (fun p => ?_) fun n d' fl hl hfl => ?_
      · simp [World.pending, List.countP_append, countP_issue, Ne.symm hj]
      · cases hl
        rw [hget] at hfl
        cases hfl
        exact Ne.symm hj

/-- An invariant of the clients, the histories of their answers and the requests they have in
flight is checked on calls and completions. -/
theorem pending_invariant_recorded {f : Flight ι C R A → η → η}
    {Cond : World ι S C R A × (ι → η) → Label ι O F D → Prop} {s₀ s : World ι S C R A × (ι → η)}
    (p : R → Bool) {Q : C → η → ℕ → Prop}
    (h : Run.Reaches (Run.record P.step (delivered f)) Cond s₀ s)
    (h₀ : ∀ i, Q (s₀.1.clients i) (s₀.2 i) (s₀.1.pending p i))
    (hcall : ∀ s i op c rs, Run.Reaches (Run.record P.step (delivered f)) Cond s₀ s →
      Q (s.1.clients i) (s.2 i) (s.1.pending p i) → Cond s (.call i op) →
      P.call (s.1.clients i) op = some (c, rs) → Q c (s.2 i) (s.1.pending p i + rs.countP p))
    (hcomplete : ∀ s n d fl a c rs k, Run.Reaches (Run.record P.step (delivered f)) Cond s₀ s →
      Q (s.1.clients fl.owner) (s.2 fl.owner) (k + [fl.request].countP p) →
      s.1.pending p fl.owner = k + [fl.request].countP p → Cond s (.deliver n d) →
      s.1.flights[n]? = some fl → fl.answer = some a →
      P.complete (s.1.clients fl.owner) fl.request a d = some (c, rs) →
      Q c (f fl (s.2 fl.owner)) (k + rs.countP p)) :
    ∀ i, Q (s.1.clients i) (s.2 i) (s.1.pending p i) := by
  refine h.invariant (I := fun s => ∀ i, Q (s.1.clients i) (s.2 i) (s.1.pending p i)) h₀
    fun s l s' hreach hQ hC hstep j => ?_
  obtain ⟨hstep, hhist⟩ := Run.record_eq_some.mp hstep
  rw [hhist]
  cases turn_of_step hstep j with
  | idle hclient hpending hother =>
    rw [hclient, hpending p, delivered_of_not_owner hother]
    exact hQ j
  | called hcall' hpending =>
    rw [delivered_of_not_owner (by simp), hpending p]
    exact hcall s j _ _ _ hreach (hQ j) hC hcall'
  | @completed n d fl a rs hget howner ha hcomplete' hpending =>
    subst howner
    obtain ⟨k, hbefore, hafter⟩ := hpending p
    rw [delivered_of_owner hget, hafter]
    exact hcomplete s n d fl a _ rs k hreach (hbefore ▸ hQ _) hbefore hC hget ha hcomplete'

/-- The same rule without a history. -/
theorem pending_invariant {Cond : World ι S C R A → Label ι O F D → Prop}
    {w₀ w : World ι S C R A} (p : R → Bool) {Q : C → ℕ → Prop}
    (h : Run.Reaches P.step Cond w₀ w) (h₀ : ∀ i, Q (w₀.clients i) (w₀.pending p i))
    (hcall : ∀ w i op c rs, Run.Reaches P.step Cond w₀ w → Q (w.clients i) (w.pending p i) →
      Cond w (.call i op) → P.call (w.clients i) op = some (c, rs) →
      Q c (w.pending p i + rs.countP p))
    (hcomplete : ∀ w n d fl a c rs k, Run.Reaches P.step Cond w₀ w →
      Q (w.clients fl.owner) (k + [fl.request].countP p) →
      w.pending p fl.owner = k + [fl.request].countP p → Cond w (.deliver n d) →
      w.flights[n]? = some fl → fl.answer = some a →
      P.complete (w.clients fl.owner) fl.request a d = some (c, rs) → Q c (k + rs.countP p)) :
    ∀ i, Q (w.clients i) (w.pending p i) := by
  obtain ⟨hist, hrec⟩ := h.exists_record (delivered fun _ (u : Unit) => u) fun _ => ()
  have hforget : ∀ {s : World ι S C R A × (ι → Unit)}, Run.Reaches (Run.record P.step
      (delivered fun _ u => u)) (fun s l => Cond s.1 l) (w₀, fun _ => ()) s →
      Run.Reaches P.step Cond w₀ s.1 :=
    fun hs => hs.of_record fun _ _ hC => hC
  refine pending_invariant_recorded p (Q := fun c _ k => Q c k) hrec h₀ ?_ ?_
  · intro s i op c rs hs
    exact hcall s.1 i op c rs (hforget hs)
  · intro s n d fl a c rs k hs
    exact hcomplete s.1 n d fl a c rs k (hforget hs)

/-! ## Requests the server has not answered -/

variable {β : Type}

/-- What `f` makes of the requests in flight that the server has not answered. -/
def World.waiting (w : World ι S C R A) (f : R → Option β) : List β :=
  w.flights.filterMap fun fl => if fl.answer.isNone then f fl.request else none

/-- What a step means for the server and the requests that wait for it. -/
inductive Waited (P : Service S C O R A F D) (w w' : World ι S C R A) (f : R → Option β) :
    Label ι O F D → Prop
  /-- a client makes a call -/
  | called {i : ι} {op : O} {c : C} {rs : List R} (hcall : P.call (w.clients i) op = some (c, rs))
      (hserver : w'.server = w.server) (hwaiting : w'.waiting f = w.waiting f ++ rs.filterMap f) :
      Waited P w w' f (.call i op)
  /-- the server answers a request -/
  | served {n : ℕ} {o : F} {fl : Flight ι C R A} {l₁ l₂ : List β}
      (hget : w.flights[n]? = some fl)
      (hserver : w'.server = (P.serve w.server fl.request o).1)
      (hbefore : w.waiting f = l₁ ++ ((f fl.request).toList ++ l₂))
      (hafter : w'.waiting f = l₁ ++ l₂) : Waited P w w' f (.serve n o)
  /-- a client takes an answer -/
  | completed {n : ℕ} {d : D} {fl : Flight ι C R A} {a : A} {c : C} {rs : List R}
      (hget : w.flights[n]? = some fl)
      (hcomplete : P.complete (w.clients fl.owner) fl.request a d = some (c, rs))
      (hserver : w'.server = w.server) (hwaiting : w'.waiting f = w.waiting f ++ rs.filterMap f) :
      Waited P w w' f (.deliver n d)

omit [DecidableEq ι] in
/-- What is issued is waiting. -/
theorem filterMap_issue (f : R → Option β) (i : ι) (cause : Option R) (c : C) (rs : List R) :
    (issue i cause c rs : List (Flight ι C R A)).filterMap
      (fun fl => if fl.answer.isNone then f fl.request else none) = rs.filterMap f := by
  rw [issue, List.filterMap_map]
  rfl

/-- What a step does to the requests waiting for the server. -/
theorem waited_of_step {w w' : World ι S C R A} {l : Label ι O F D} (h : P.step w l = some w')
    (f : R → Option β) : Waited P w w' f l := by
  cases stepped_of_step P h with
  | call hcall =>
    refine .called hcall rfl ?_
    rw [World.waiting, List.filterMap_append, filterMap_issue]
    rfl
  | @serve s cs l₁ l₂ i r cause c o =>
    have hget : (l₁ ++ (⟨i, r, cause, c, none⟩ : Flight ι C R A) :: l₂)[l₁.length]? =
        some ⟨i, r, cause, c, none⟩ := by simp
    have hbefore : World.waiting ⟨s, cs, l₁ ++ ⟨i, r, cause, c, none⟩ :: l₂⟩ f =
        World.waiting ⟨s, cs, l₁⟩ f ++ ((f r).toList ++ World.waiting ⟨s, cs, l₂⟩ f) := by
      simp only [World.waiting, List.filterMap_append, List.filterMap_cons]
      cases f r <;> rfl
    exact .served hget rfl hbefore (by simp [World.waiting])
  | @deliver s cs l₁ l₂ i r cause c₀ a c rs d hcomplete =>
    have hget : (l₁ ++ (⟨i, r, cause, c₀, some a⟩ : Flight ι C R A) :: l₂)[l₁.length]? =
        some ⟨i, r, cause, c₀, some a⟩ := by simp
    refine .completed hget hcomplete rfl ?_
    -- the request whose completion runs has been answered
    simp only [World.waiting, List.filterMap_append, filterMap_issue]
    simp

end Steps

end Async
