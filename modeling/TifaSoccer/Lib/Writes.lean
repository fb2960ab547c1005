import Mathlib.Data.List.Infix
import Mathlib.Data.List.Induction
import TifaSoccer.Lib.JsonPath

/-!
# Layers of writes

A layer is a partial function from paths to values: what is to be written where. It is
`Layered` if none of its paths is above another one, so that the order in which its writes are
made does not matter. One more write is added to a layer in one of two ways: in the value of the
write above it (`Function.update`), or in place of the writes below it (`overwrite`). Both have
the effect of making the layer's writes first and the new one after them.
-/

/-- The value to be written at each path. -/
abbrev Writes (K V : Type) [LinearOrder K] := List K → Option (Json K V)

namespace Writes

variable {K V : Type} [LinearOrder K] {W W' : Writes K V} {ws ws' : List (List K × Json K V)}
  {j : Json K V} {p r : List K}

/-- The list has every write of the layer once. -/
structure Lists (W : Writes K V) (ws : List (List K × Json K V)) : Prop where
  nodup : (ws.map Prod.fst).Nodup
  mem_iff : ∀ p v, (p, v) ∈ ws ↔ W p = some v

/-- No path of the layer is above another one. -/
def Layered (W : Writes K V) : Prop :=
  ∀ p q v w, W p = some v → W q = some w → p ≠ q → Json.Diverge p q

/-- Write `v` at `p` and drop the writes below. -/
def overwrite (W : Writes K V) (p : List K) (v : Json K V) : Writes K V := fun q =>
  if q = p then some v else if p <+: q then none else W q

/-- Drop the writes at `p` and below. -/
def erase (W : Writes K V) (p : List K) : Writes K V := fun q =>
  if p <+: q then none else W q

/-! ## Lists of writes -/

/-- Two lists of the same writes differ in their order only. -/
theorem Lists.perm (h : W.Lists ws) (h' : W.Lists ws') : ws.Perm ws' := by
  refine (List.perm_ext_iff_of_nodup h.nodup.of_map h'.nodup.of_map).mpr ?_
  rintro ⟨p, v⟩
  rw [h.mem_iff, h'.mem_iff]

/-- The listed writes are apart if no one is above another. -/
theorem Lists.apart (hW : W.Layered) (h : W.Lists ws) : Json.Apart ws := by
  refine (List.pairwise_map.mp h.nodup).imp_of_mem ?_
  rintro ⟨p, v⟩ ⟨q, w⟩ hp hq hne
  exact hW p q v w ((h.mem_iff p v).mp hp) ((h.mem_iff q w).mp hq) hne

/-- Listing the writes at some paths only. -/
theorem Lists.filter (h : W.Lists ws) (P : List K → Prop) [DecidablePred P] :
    Lists (fun q => if P q then W q else none) (ws.filter fun w => decide (P w.1)) where
  nodup := h.nodup.sublist (List.filter_sublist.map _)
  mem_iff q v := by
    rw [List.mem_filter, h.mem_iff, decide_eq_true_eq]
    split_ifs with hq <;> simp [hq]

/-- A write at a new path is added to the list. -/
theorem Lists.concat (h : W.Lists ws) (hp : W p = none) (v : Json K V) :
    Lists (Function.update W p (some v)) (ws ++ [(p, v)]) where
  nodup := by
    rw [List.map_append, List.nodup_append]
    refine ⟨h.nodup, List.nodup_singleton _, ?_⟩
    rintro q hq q' hq' rfl
    obtain ⟨⟨q, w⟩, hmem, rfl⟩ := List.mem_map.mp hq
    have hw := (h.mem_iff q w).mp hmem
    obtain rfl : q = p := by simpa using hq'
    rw [hp] at hw
    cases hw
  mem_iff q w := by
    rw [List.mem_append, h.mem_iff, List.mem_singleton, Function.update_apply]
    split_ifs with hq
    · subst hq
      simp [hp, eq_comm]
    · simp [hq]

/-- A list is a list of any equal map. -/
theorem Lists.congr (h : W.Lists ws) (heq : ∀ q, W q = W' q) : W'.Lists ws :=
  (funext heq : W = W') ▸ h

/-- A list of the writes with the one at `r` replaced: it comes last. -/
theorem Lists.update (h : W.Lists ws) (r : List K) (x : Json K V) :
    Lists (Function.update W r (some x)) (ws.filter (fun w => decide (w.1 ≠ r)) ++ [(r, x)]) := by
  refine ((h.filter (· ≠ r)).concat (by simp) x).congr fun q => ?_
  rw [Function.update_apply, Function.update_apply]
  split_ifs <;> rfl

/-- A write that covers others takes their place in the list. -/
theorem Lists.overwrite (h : W.Lists ws) (p : List K) (v : Json K V) :
    (W.overwrite p v).Lists (ws.filter (fun w => decide (¬ p <+: w.1)) ++ [(p, v)]) := by
  refine ((h.filter (¬ p <+: ·)).concat (by simp) v).congr fun q => ?_
  rw [Function.update_apply, Writes.overwrite]
  split_ifs <;> rfl

/-! ## Adding a write -/

/-- A write at a path that has one already keeps the layers apart. -/
theorem layered_update (hW : W.Layered) (hr : W r ≠ none) (v : Json K V) :
    Layered (Function.update W r (some v)) := by
  have hsome : ∀ q w, Function.update W r (some v) q = some w → ∃ w', W q = some w' := by
    intro q w hq
    rw [Function.update_apply] at hq
    split_ifs at hq with h
    · subst h
      exact Option.ne_none_iff_exists'.mp hr
    · exact ⟨w, hq⟩
  intro p q w w' hp hq hne
  obtain ⟨x, hx⟩ := hsome p w hp
  obtain ⟨x', hx'⟩ := hsome q w' hq
  exact hW p q x x' hx hx' hne

/-- So does a write that takes the place of those below it. -/
theorem layered_overwrite (hW : W.Layered) (hp : ∀ q, q <+: p → W q = none) (v : Json K V) :
    (W.overwrite p v).Layered := by
  -- a write that is kept parts from `p`
  have hkept : ∀ q w, q ≠ p → W.overwrite p v q = some w → W q = some w ∧ Json.Diverge p q := by
    intro q w hne hq
    rw [overwrite, if_neg hne] at hq
    split_ifs at hq with hpre
    refine ⟨hq, ?_⟩
    rcases Json.prefix_or_diverge p q with h | h | h
    · exact absurd h hpre
    · rw [hp q h] at hq
      cases hq
    · exact h
  intro q q' w w' hq hq' hne
  by_cases h : q = p
  · subst h
    exact (hkept q' w' hne.symm hq').2
  · by_cases h' : q' = p
    · subst h'
      exact (hkept q w h hq).2.symm
    · exact hW q q' w w' (hkept q w h hq).1 (hkept q' w' h' hq').1 hne

/-- So does removing writes. -/
theorem layered_erase (hW : W.Layered) (p : List K) : (W.erase p).Layered := by
  intro q q' w w' hq hq' hne
  rw [erase] at hq hq'
  split_ifs at hq hq'
  exact hW q q' w w' hq hq' hne

/-- A write below a write of the layer is made in its value. -/
theorem setAll_update {s : List K} {x v : Json K V} (hW : W.Layered) (h : W.Lists ws)
    (h' : Lists (Function.update W r (some (x.set s v))) ws') (hr : W r = some x)
    (hopen : j.OpenAt ws) : j.setAll ws' = (j.setAll ws).set (r ++ s) v := by
  -- the write at `r` comes last
  set rest := ws.filter fun w => decide (w.1 ≠ r)
  have hold : W.Lists (rest ++ [(r, x)]) :=
    (h.update r x).congr fun q => by rw [← hr, Function.update_eq_self]
  have hnew : Lists (Function.update W r (some (x.set s v))) (rest ++ [(r, x.set s v)]) :=
    h.update r (x.set s v)
  have hopen_old : j.OpenAt (rest ++ [(r, x)]) := fun w hw =>
    hopen w ((h.perm hold).mem_iff.mpr hw)
  have hr_open : j.Open r := hopen_old (r, x) (by simp)
  have hopen_new : j.OpenAt (rest ++ [(r, x.set s v)]) := by
    intro w hw
    rcases List.mem_append.mp hw with hw | hw
    · exact hopen_old w (List.mem_append_left _ hw)
    · rw [List.mem_singleton.mp hw]
      exact hr_open
  have hrest_diverge : ∀ w ∈ rest, Json.Diverge r w.1 := fun w hw =>
    ((List.pairwise_append.mp (hold.apart hW)).2.2 w hw (r, x) (by simp)).symm
  calc j.setAll ws'
      = j.setAll (rest ++ [(r, x.set s v)]) :=
        (Json.setAll_perm (hnew.perm h') (hnew.apart (layered_update hW (by simp [hr]) _))
          hopen_new).symm
    _ = (j.setAll rest).set r (x.set s v) := Json.setAll_concat ..
    _ = ((j.setAll rest).set r x).set (r ++ s) v :=
        (Json.set_set_append (Json.open_setAll_of_diverge hr_open hrest_diverge) s x v).symm
    _ = (j.setAll ws).set (r ++ s) v := by
        rw [← Json.setAll_concat, Json.setAll_perm (h.perm hold) (h.apart hW) hopen]

/-- A write at a path that no write of the layer is above. -/
theorem setAll_overwrite {v : Json K V} (hW : W.Layered) (h : W.Lists ws)
    (h' : (W.overwrite p v).Lists ws') (hp : ∀ q, q <+: p → W q = none) (hopen : j.OpenAt ws)
    (hp_open : j.Open p) : j.setAll ws' = (j.setAll ws).set p v := by
  set rest := ws.filter fun w => decide (¬ p <+: w.1)
  set below := ws.filter fun w => decide (p <+: w.1)
  have hrest : Lists (fun q => if ¬ p <+: q then W q else none) rest := h.filter (¬ p <+: ·)
  have hsplit : (rest ++ below).Perm ws := by
    refine List.perm_append_comm.trans ?_
    convert List.filter_append_perm (fun w : List K × Json K V => decide (p <+: w.1)) ws using 3
    simp
  have hnew : (W.overwrite p v).Lists (rest ++ [(p, v)]) := h.overwrite p v
  have hdiverge : ∀ w ∈ rest, Json.Diverge p w.1 := by
    rintro ⟨q, w⟩ hw
    have hq := (hrest.mem_iff q w).mp hw
    split_ifs at hq with hpre
    rcases Json.prefix_or_diverge p q with hpq | hpq | hpq
    · exact absurd hpq hpre
    · rw [hp q hpq] at hq
      cases hq
    · exact hpq
  have hopen_new : j.OpenAt (rest ++ [(p, v)]) := by
    intro w hw
    rcases List.mem_append.mp hw with hw | hw
    · exact hopen w (List.mem_of_mem_filter hw)
    · rw [List.mem_singleton.mp hw]
      exact hp_open
  calc j.setAll ws'
      = j.setAll (rest ++ [(p, v)]) :=
        (Json.setAll_perm (hnew.perm h') (hnew.apart (layered_overwrite hW hp v)) hopen_new).symm
    _ = (j.setAll rest).set p v := Json.setAll_concat ..
    _ = ((j.setAll rest).setAll below).set p v :=
        (Json.set_setAll_of_prefix (Json.open_setAll_of_diverge hp_open hdiverge)
          (fun w hw => by simpa using (List.mem_filter.mp hw).2) v).symm
    _ = (j.setAll ws).set p v := by
        rw [← Json.setAll_append, Json.setAll_perm hsplit.symm (h.apart hW) hopen]

/-! ## Reading below a layer -/

/-- Below a write of the layer its value is read. -/
theorem get_setAll_of_covered {s : List K} {x : Json K V} (hW : W.Layered) (h : W.Lists ws)
    (hr : W r = some x) : (j.setAll ws).get (r ++ s) = x.get s := by
  rw [Json.get_append, Json.get_setAll_of_mem j ((h.mem_iff r x).mpr hr)]
  rintro ⟨q, w⟩ hw
  have hq := (h.mem_iff q w).mp hw
  by_cases hqr : q = r
  · subst hqr
    rw [hr] at hq
    exact .inl (by rw [Option.some.inj hq])
  · exact .inr (hW q r w x hq hr hqr)

/-- Elsewhere the writes below the path are made in what was read before. -/
theorem get_setAll_of_not_covered (hW : W.Layered) (h : W.Lists ws)
    (h' : Lists (fun q => W (p ++ q)) ws') (hp : ∀ q, q <+: p → q ≠ p → W q = none)
    (hopen : j.OpenAt ws) : (j.setAll ws).get p = (j.get p).setAll ws' := by
  have hget : ∀ (j : Json K V) (ws : List (List K × Json K V)),
      (j.setAll (ws.map fun w => (p ++ w.1, w.2))).get p = (j.get p).setAll ws := by
    intro j ws
    induction ws generalizing j with
    | nil => rfl
    | cons w ws ih =>
      rw [List.map_cons, Json.setAll_cons, ih, Json.get_set_append, Json.setAll_cons]
  set rest := ws.filter fun w => decide (¬ p <+: w.1)
  set below := ws'.map fun w => (p ++ w.1, w.2)
  have hrest : Lists (fun q => if ¬ p <+: q then W q else none) rest := h.filter (¬ p <+: ·)
  have hbelow : ∀ q v, (q, v) ∈ below ↔ p <+: q ∧ W q = some v := by
    intro q v
    rw [List.mem_map]
    constructor
    · rintro ⟨⟨q, w⟩, hw, heq⟩
      obtain ⟨rfl, rfl⟩ := Prod.mk.inj heq
      exact ⟨List.prefix_append p q, (h'.mem_iff q w).mp hw⟩
    · rintro ⟨⟨q, rfl⟩, hq⟩
      exact ⟨(q, v), (h'.mem_iff q v).mpr hq, rfl⟩
  have hsplit : W.Lists (rest ++ below) := by
    refine ⟨?_, fun q v => ?_⟩
    · rw [List.map_append, List.nodup_append]
      refine ⟨hrest.nodup, ?_, ?_⟩
      · have hkeys : below.map Prod.fst = (ws'.map Prod.fst).map (p ++ ·) := by
          simp [below, Function.comp_def]
        rw [hkeys]
        exact h'.nodup.map (List.append_right_injective p)
      · rintro q hq q' hq' rfl
        obtain ⟨⟨q, w⟩, hw, rfl⟩ := List.mem_map.mp hq
        obtain ⟨⟨q', w'⟩, hw', rfl⟩ := List.mem_map.mp hq'
        have hnot := (hrest.mem_iff _ w).mp hw
        rw [if_neg (not_not.mpr ((hbelow _ w').mp hw').1)] at hnot
        cases hnot
    · rw [List.mem_append, hrest.mem_iff, hbelow]
      by_cases hq : p <+: q <;> simp [hq]
  have hdiverge : ∀ w ∈ rest, Json.Diverge w.1 p := by
    rintro ⟨q, w⟩ hw
    have hq := (hrest.mem_iff q w).mp hw
    split_ifs at hq with hpre
    rcases Json.prefix_or_diverge p q with hpq | hpq | hpq
    · exact absurd hpq hpre
    · have hne : q ≠ p := by
        rintro rfl
        exact hpre List.prefix_rfl
      rw [hp q hpq hne] at hq
      cases hq
    · exact hpq.symm
  rw [Json.setAll_perm (h.perm hsplit) (h.apart hW) hopen, Json.setAll_append, hget,
    Json.get_setAll_of_diverge j hdiverge]

/-! ## The layer of a list of writes -/

/-- The first write at the path or above it. -/
def cover (W : Writes K V) (p : List K) : Option (List K × Json K V) :=
  p.inits.findSome? fun r => (W r).map fun x => (r, x)

/-- Add a write to a layer: in the value of the write above it, or in place of those below. -/
def add (W : Writes K V) (p : List K) (v : Json K V) : Writes K V :=
  match W.cover p with
  | some (r, x) => Function.update W r (some (x.set (p.drop r.length) v))
  | none => W.overwrite p v

/-- The layer of writes that are made one after the other. -/
def layer (pending : List (List K × Json K V)) : Writes K V :=
  pending.foldl (fun W w => W.add w.1 w.2) fun _ => none

/-- Nothing covers a path without a write above it. -/
theorem cover_eq_none (h : ∀ q, q <+: p → W q = none) : W.cover p = none := by
  rw [cover, List.findSome?_eq_none_iff]
  intro r hr
  rw [h r ((List.mem_inits r p).mp hr)]
  rfl

/-- In a layer at most one write is at a path or above it. -/
theorem cover_eq_some {s : List K} {x : Json K V} (hW : W.Layered) (hr : W r = some x) :
    W.cover (r ++ s) = some (r, x) := by
  have hfound : (W.cover (r ++ s)).isSome = true := by
    rw [cover, List.findSome?_isSome_iff]
    refine ⟨r, (List.mem_inits r (r ++ s)).mpr (List.prefix_append r s), ?_⟩
    rw [hr]
    rfl
  obtain ⟨⟨q, y⟩, hq⟩ := Option.isSome_iff_exists.mp hfound
  rw [hq]
  obtain ⟨r', hr', hmap⟩ := List.exists_of_findSome?_eq_some hq
  obtain ⟨z, hz, heq⟩ := Option.map_eq_some_iff.mp hmap
  obtain ⟨rfl, rfl⟩ := Prod.mk.inj heq
  have hpre : r' <+: r ++ s := (List.mem_inits r' (r ++ s)).mp hr'
  by_cases hne : r' = r
  · subst hne
    rw [hr] at hz
    rw [Option.some.inj hz]
  · -- both are above the same path, so they cannot part
    have hdiv := hW r' r z x hz hr hne
    rcases List.prefix_or_prefix_of_prefix hpre (List.prefix_append r s) with h | h
    · exact absurd hdiv (Json.not_diverge_of_prefix h)
    · exact absurd hdiv.symm (Json.not_diverge_of_prefix h)

/-- A write below another one goes into it. -/
theorem add_of_cover {s : List K} {x : Json K V} (hW : W.Layered) (hr : W r = some x)
    (v : Json K V) : W.add (r ++ s) v = Function.update W r (some (x.set s v)) := by
  rw [add, cover_eq_some hW hr]
  simp

/-- Any other write takes the place of those below it. -/
theorem add_of_not_cover (h : ∀ q, q <+: p → W q = none) (v : Json K V) :
    W.add p v = W.overwrite p v := by
  rw [add, cover_eq_none h]

/-- What adding a write does: it goes into a write strictly above it, or takes the place of what
is at its path and below. -/
theorem add_cases (hW : W.Layered) (p : List K) (v : Json K V) :
    (∃ r s x, p = r ++ s ∧ s ≠ [] ∧ W r = some x ∧
      W.add p v = Function.update W r (some (x.set s v))) ∨
    ((∀ q, q <+: p → q ≠ p → W q = none) ∧ W.add p v = W.overwrite p v) := by
  by_cases hstrict : ∃ r, r <+: p ∧ r ≠ p ∧ W r ≠ none
  · obtain ⟨r, ⟨s, rfl⟩, hne, hr⟩ := hstrict
    obtain ⟨x, hx⟩ := Option.ne_none_iff_exists'.mp hr
    refine .inl ⟨r, s, x, rfl, ?_, hx, add_of_cover hW hx v⟩
    rintro rfl
    exact hne (List.append_nil r).symm
  · have hnone : ∀ q, q <+: p → q ≠ p → W q = none := by
      intro q hq hne
      by_contra hsome
      exact hstrict ⟨q, hq, hne, hsome⟩
    refine .inr ⟨hnone, ?_⟩
    cases hp : W p with
    | none =>
      refine add_of_not_cover (fun q hq => ?_) v
      by_cases hne : q = p
      · rw [hne, hp]
      · exact hnone q hq hne
    | some x =>
      have hadd := add_of_cover (s := []) hW hp v
      rw [List.append_nil] at hadd
      rw [hadd]
      funext q
      rw [Function.update_apply, overwrite, Json.set_nil]
      split_ifs with hq hpre
      · rfl
      · -- nothing is below a write of a layer
        by_contra hsome
        obtain ⟨y, hy⟩ := Option.ne_none_iff_exists'.mp hsome
        exact Json.not_diverge_of_prefix hpre (hW p q x y hp hy (Ne.symm hq))
      · rfl

/-- Adding a write keeps the layers apart. -/
theorem layered_add (hW : W.Layered) (p : List K) (v : Json K V) : (W.add p v).Layered := by
  by_cases hcover : ∃ r, r <+: p ∧ W r ≠ none
  · obtain ⟨r, ⟨s, rfl⟩, hr⟩ := hcover
    obtain ⟨x, hx⟩ := Option.ne_none_iff_exists'.mp hr
    rw [add_of_cover hW hx]
    exact layered_update hW hr _
  · have hnone : ∀ q, q <+: p → W q = none := by
      intro q hq
      by_contra hsome
      exact hcover ⟨q, hq, hsome⟩
    rw [add_of_not_cover hnone]
    exact layered_overwrite hW hnone v

/-- The last write is added last. -/
theorem layer_concat (pending : List (List K × Json K V)) (w : List K × Json K V) :
    layer (pending ++ [w]) = (layer pending).add w.1 w.2 := by
  simp [layer]

/-- The writes of a queue are apart. -/
theorem layered_layer (pending : List (List K × Json K V)) : (layer pending).Layered := by
  induction pending using List.reverseRecOn with
  | nil => intro p q v w hp; cases hp
  | append_singleton pending w ih =>
    rw [layer_concat]
    exact layered_add ih w.1 w.2

/-- A layer writes only where one of its writes was made. -/
theorem mem_paths_of_layer {pending : List (List K × Json K V)} {q : List K}
    (h : layer pending q ≠ none) : q ∈ pending.map Prod.fst := by
  induction pending using List.reverseRecOn with
  | nil => exact absurd rfl h
  | append_singleton pending w ih =>
    rw [List.map_append, List.mem_append]
    rw [layer_concat] at h
    rcases add_cases (layered_layer pending) w.1 w.2 with ⟨r, s, x, -, -, hr, hadd⟩ | ⟨-, hadd⟩
    · rw [hadd, Function.update_apply] at h
      split_ifs at h with hq
      · subst hq
        exact .inl (ih (by simp [hr]))
      · exact .inl (ih h)
    · rw [hadd, overwrite] at h
      split_ifs at h with hq hpre
      · exact .inr (by simp [hq])
      · exact absurd rfl h
      · exact .inl (ih h)

/-- The writes of a queue can be listed. -/
theorem exists_lists_layer (pending : List (List K × Json K V)) :
    ∃ ws, (layer pending).Lists ws := by
  induction pending using List.reverseRecOn with
  | nil => exact ⟨[], List.nodup_nil, by simp [layer]⟩
  | append_singleton pending w ih =>
    obtain ⟨ws, hws⟩ := ih
    rw [layer_concat]
    rcases add_cases (layered_layer pending) w.1 w.2 with ⟨r, s, x, -, -, -, hadd⟩ | ⟨-, hadd⟩
    · rw [hadd]
      exact ⟨_, hws.update r (x.set s w.2)⟩
    · rw [hadd]
      exact ⟨_, hws.overwrite w.1 w.2⟩

/-- What is open for a queue is open for its writes. -/
theorem openAt_of_layer {pending : List (List K × Json K V)} (h : (layer pending).Lists ws)
    (hopen : j.OpenAt pending) : j.OpenAt ws := by
  rintro ⟨q, y⟩ hq
  have hmem : q ∈ pending.map Prod.fst := by
    apply mem_paths_of_layer
    rw [(h.mem_iff q y).mp hq]
    simp
  obtain ⟨w, hw, rfl⟩ := List.mem_map.mp hmem
  exact hopen w hw

/-- A layer has the effect of its writes, one after the other. -/
theorem setAll_layer {pending : List (List K × Json K V)} (h : (layer pending).Lists ws)
    (hopen : j.OpenAt pending) : j.setAll ws = j.setAll pending := by
  induction pending using List.reverseRecOn generalizing ws with
  | nil =>
    have hnil : ws = [] := List.eq_nil_iff_forall_not_mem.mpr fun w hw => by
      have := (h.mem_iff w.1 w.2).mp hw
      cases this
    rw [hnil]
  | append_singleton pending w ih =>
    obtain ⟨p, v⟩ := w
    have hlayered := layered_layer pending
    have hopen' : j.OpenAt pending := fun w hw => hopen w (List.mem_append_left _ hw)
    have hp : j.Open p := hopen (p, v) (by simp)
    obtain ⟨ws', hws'⟩ := exists_lists_layer pending
    have hopen_ws : j.OpenAt ws' := openAt_of_layer hws' hopen'
    rw [layer_concat] at h
    rw [Json.setAll_concat, ← ih hws' hopen']
    by_cases hcover : ∃ r, r <+: p ∧ layer pending r ≠ none
    · obtain ⟨r, ⟨s, rfl⟩, hr⟩ := hcover
      obtain ⟨x, hx⟩ := Option.ne_none_iff_exists'.mp hr
      rw [add_of_cover hlayered hx] at h
      exact setAll_update hlayered hws' h hx hopen_ws
    · have hnone : ∀ q, q <+: p → layer pending q = none := by
        intro q hq
        by_contra hsome
        exact hcover ⟨q, hq, hsome⟩
      rw [add_of_not_cover hnone] at h
      exact setAll_overwrite hlayered hws' h hnone hopen_ws hp

/-! ## Forgetting the first writes -/

/-- The two layers agree except at `p` and below. -/
def AgreeOff (p : List K) (W W' : Writes K V) : Prop := ∀ q, ¬ p <+: q → W q = W' q

/-- A write below `p` that no write above `p` takes up changes nothing elsewhere. -/
theorem agreeOff_add {q : List K} (hW : W.Layered) (hpq : p <+: q)
    (hnone : ∀ r, r <+: q → ¬ p <+: r → W r = none) (v : Json K V) : AgreeOff p (W.add q v) W := by
  intro q' hq'
  rcases add_cases hW q v with ⟨r, s, x, rfl, -, hr, hadd⟩ | ⟨-, hadd⟩
  · have hpr : p <+: r := by
      by_contra hpr
      rw [hnone r (List.prefix_append r s) hpr] at hr
      cases hr
    rw [hadd, Function.update_of_ne]
    rintro rfl
    exact hq' hpr
  · rw [hadd, overwrite, if_neg, if_neg]
    · exact fun h => hq' (hpq.trans h)
    · rintro rfl
      exact hq' hpq

/-- Adding one write to both keeps two layers in agreement. -/
theorem AgreeOff.add (h : AgreeOff p W W') (hW : W.Layered) (hW' : W'.Layered) (q : List K)
    (v : Json K V) : AgreeOff p (W.add q v) (W'.add q v) := by
  by_cases hcover : ∃ r, r <+: q ∧ ¬ p <+: r ∧ W r ≠ none
  · obtain ⟨r, ⟨s, rfl⟩, hpr, hr⟩ := hcover
    obtain ⟨x, hx⟩ := Option.ne_none_iff_exists'.mp hr
    have hx' : W' r = some x := (h r hpr).symm.trans hx
    rw [add_of_cover hW hx, add_of_cover hW' hx']
    intro q' hq'
    rw [Function.update_apply, Function.update_apply, h q' hq']
  · have hnone : ∀ r, r <+: q → ¬ p <+: r → W r = none := by
      intro r hr hpr
      by_contra hsome
      exact hcover ⟨r, hr, hpr, hsome⟩
    have hnone' : ∀ r, r <+: q → ¬ p <+: r → W' r = none := fun r hr hpr =>
      (h r hpr).symm.trans (hnone r hr hpr)
    by_cases hpq : p <+: q
    · intro q' hq'
      rw [agreeOff_add hW hpq hnone v q' hq', agreeOff_add hW' hpq hnone' v q' hq', h q' hq']
    · have hoff : ∀ r, r <+: q → ¬ p <+: r := fun r hr hpr => hpq (hpr.trans hr)
      rw [add_of_not_cover fun r hr => hnone r hr (hoff r hr),
        add_of_not_cover fun r hr => hnone' r hr (hoff r hr)]
      intro q' hq'
      rw [overwrite, overwrite, h q' hq']

/-- A write at `p` or above makes them equal. -/
theorem AgreeOff.add_eq {q : List K} (h : AgreeOff p W W') (hW : W.Layered) (hW' : W'.Layered)
    (hq : q <+: p) (v : Json K V) : W.add q v = W'.add q v := by
  -- a path strictly above `q` is not below `p`
  have hoff : ∀ r, r <+: q → r ≠ q → ¬ p <+: r := fun r hr hne hpr =>
    hne (hr.eq_of_length_le (hq.trans hpr).length_le)
  have hbelow : ∀ {W : Writes K V} {r x}, W.Layered → W r = some x → r <+: q → r ≠ q →
      ∀ q', p <+: q' → W q' = none := by
    intro W r x hW hx hr hne q' hpq'
    by_contra hsome
    obtain ⟨y, hy⟩ := Option.ne_none_iff_exists'.mp hsome
    have hrq' : r ≠ q' := by
      rintro rfl
      exact hoff r hr hne hpq'
    exact Json.not_diverge_of_prefix ((hr.trans hq).trans hpq') (hW r q' x y hx hy hrq')
  by_cases hcover : ∃ r, r <+: q ∧ r ≠ q ∧ W r ≠ none
  · obtain ⟨r, hr, hne, hsome⟩ := hcover
    obtain ⟨x, hx⟩ := Option.ne_none_iff_exists'.mp hsome
    have hx' : W' r = some x := (h r (hoff r hr hne)).symm.trans hx
    obtain ⟨s, rfl⟩ := id hr
    rw [add_of_cover hW hx, add_of_cover hW' hx']
    have heq : W = W' := by
      funext q'
      by_cases hpq' : p <+: q'
      · rw [hbelow hW hx hr hne q' hpq', hbelow hW' hx' hr hne q' hpq']
      · exact h q' hpq'
    rw [heq]
  · have hnone : ∀ r, r <+: q → r ≠ q → W r = none := by
      intro r hr hne
      by_contra hsome
      exact hcover ⟨r, hr, hne, hsome⟩
    have hover : ∀ {W : Writes K V}, W.Layered → (∀ r, r <+: q → r ≠ q → W r = none) →
        W.add q v = W.overwrite q v := by
      intro W hW hnone
      rcases add_cases hW q v with ⟨r, s, x, hqr, hs, hx, -⟩ | ⟨-, hadd⟩
      · rw [hnone r ⟨s, hqr.symm⟩ fun hrq => hs (by simpa [hrq] using hqr)] at hx
        cases hx
      · exact hadd
    rw [hover hW hnone, hover hW' fun r hr hne =>
      (h r (hoff r hr hne)).symm.trans (hnone r hr hne)]
    funext q'
    rw [overwrite, overwrite]
    split_ifs with h₁ h₂
    · rfl
    · rfl
    · exact h q' fun hpq' => h₂ (hq.trans hpq')

/-- A queue is layered one write after the other. -/
theorem layer_append (first rest : List (List K × Json K V)) :
    layer (first ++ rest) = rest.foldl (fun W w => W.add w.1 w.2) (layer first) :=
  List.foldl_append

/-- Writes at `p` and below are a layer that is empty elsewhere. -/
theorem agreeOff_layer {first : List (List K × Json K V)} (hfirst : ∀ w ∈ first, p <+: w.1) :
    AgreeOff p (layer first) fun _ => none := by
  intro q hq
  by_contra hsome
  obtain ⟨w, hw, rfl⟩ := List.mem_map.mp (mem_paths_of_layer hsome)
  exact hq (hfirst w hw)

/-- Writes at `p` and below are forgotten once something is written at `p` or above. -/
theorem layer_of_shadowed {first rest : List (List K × Json K V)}
    (hfirst : ∀ w ∈ first, p <+: w.1) (hrest : ∃ w ∈ rest, w.1 <+: p) :
    layer (first ++ rest) = layer rest := by
  have hgen : ∀ W W' : Writes K V, AgreeOff p W W' → W.Layered → W'.Layered →
      rest.foldl (fun W w => W.add w.1 w.2) W = rest.foldl (fun W w => W.add w.1 w.2) W' := by
    induction rest with
    | nil => simp at hrest
    | cons w rest ih =>
      intro W W' h hW hW'
      rw [List.foldl_cons, List.foldl_cons]
      by_cases hw : w.1 <+: p
      · rw [h.add_eq hW hW' hw]
      · have hrest' : ∃ w ∈ rest, w.1 <+: p := by
          obtain ⟨w', hw', hpre⟩ := hrest
          rcases List.mem_cons.mp hw' with rfl | hw'
          · exact absurd hpre hw
          · exact ⟨w', hw', hpre⟩
        exact ih hrest' _ _ (h.add hW hW' w.1 w.2) (layered_add hW _ _) (layered_add hW' _ _)
  rw [layer_append]
  exact hgen _ _ (agreeOff_layer hfirst) (layered_layer first) (layered_layer [])

/-- Writes at `p` and below leave the others alone if none of those is above or below `p`. -/
theorem layer_of_apart {first rest : List (List K × Json K V)} (hfirst : ∀ w ∈ first, p <+: w.1)
    (hrest : ∀ w ∈ rest, Json.Diverge p w.1) : (layer (first ++ rest)).erase p = layer rest := by
  have hgen : ∀ (rest : List (List K × Json K V)) (W W' : Writes K V), AgreeOff p W W' →
      W.Layered → W'.Layered → AgreeOff p (rest.foldl (fun W w => W.add w.1 w.2) W)
        (rest.foldl (fun W w => W.add w.1 w.2) W') := by
    intro rest
    induction rest with
    | nil => exact fun W W' h _ _ => h
    | cons w rest ih =>
      intro W W' h hW hW'
      exact ih _ _ (h.add hW hW' w.1 w.2) (layered_add hW _ _) (layered_add hW' _ _)
  have hagree : AgreeOff p (layer (first ++ rest)) (layer rest) := by
    rw [layer_append]
    exact hgen rest _ _ (agreeOff_layer hfirst) (layered_layer first) (layered_layer [])
  funext q
  rw [erase]
  split_ifs with hq
  · by_contra hsome
    obtain ⟨w, hw, rfl⟩ := List.mem_map.mp (mem_paths_of_layer (Ne.symm hsome))
    exact Json.not_diverge_of_prefix hq (hrest w hw)
  · exact hagree q hq

/-- Dropping the writes below several paths. -/
theorem foldl_erase (W : Writes K V) (ps : List (List K)) (q : List K) :
    ps.foldl erase W q = if ∃ p ∈ ps, p <+: q then none else W q := by
  induction ps generalizing W with
  | nil => simp
  | cons p ps ih =>
    rw [List.foldl_cons, ih, erase]
    by_cases hp : p <+: q <;> simp [hp]

end Writes
