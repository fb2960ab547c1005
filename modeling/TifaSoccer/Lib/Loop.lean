import Mathlib.Data.List.Basic
import Mathlib.Data.List.Forall2
import Mathlib.Data.List.Induction

/-!
# Loops that append or clear

A loop builds a list: it appends what it makes of an item, and where it can make nothing of one it
clears the list and goes on. What is left at the end comes from the items after the last bad one.
`foldl_appendOrClear_iff` says when that is nothing or everything.
-/

variable {α β γ : Type}

/-- One turn of the loop. -/
def appendOrClear (f : α → Option β) (built : List β) (a : α) : List β :=
  match f a with
  | some b => built ++ [b]
  | none => []

/-- An element that is built is appended. -/
theorem appendOrClear_of_some {f : α → Option β} {a : α} {b : β} (h : f a = some b)
    (built : List β) : appendOrClear f built a = built ++ [b] := by
  simp [appendOrClear, h]

/-- One that is not clears the list. -/
theorem appendOrClear_of_none {f : α → Option β} {a : α} (h : f a = none) (built : List β) :
    appendOrClear f built a = [] := by
  simp [appendOrClear, h]

/-- Over good items the loop only appends. -/
theorem foldl_appendOrClear_of_forall {f : α → Option β} {as : List α}
    (h : ∀ a ∈ as, (f a).isSome = true) (built : List β) :
    ∃ bs, as.foldl (appendOrClear f) built = built ++ bs ∧
      List.Forall₂ (fun a b => f a = some b) as bs := by
  -- induction on the items still to come
  induction as generalizing built with
  | nil => exact ⟨[], (List.append_nil _).symm, .nil⟩
  | cons a as ih =>
    obtain ⟨b, hb⟩ := Option.isSome_iff_exists.mp (h a (List.mem_cons_self ..))
    obtain ⟨bs, hbs, hall⟩ := ih (fun a' ha' => h a' (List.mem_cons_of_mem _ ha')) (built ++ [b])
    refine ⟨b :: bs, ?_, .cons hb hall⟩
    rw [List.foldl_cons, appendOrClear_of_some hb, hbs, List.append_assoc, List.singleton_append]

/-- The loop ends with what it makes of all good items exactly when none of them stands before a
bad one. -/
theorem foldl_appendOrClear_eq_filterMap_iff (f : α → Option β) (as : List α) :
    as.foldl (appendOrClear f) [] = as.filterMap f ↔
      as.Pairwise fun a a' => (f a).isSome = true → (f a').isSome = true := by
  -- induction from the end: the last item decides whether anything of the others is kept
  induction as using List.reverseRecOn with
  | nil => simp
  | append_singleton as a ih =>
    rw [List.foldl_append, List.foldl_cons, List.foldl_nil, List.filterMap_append,
      List.pairwise_append]
    cases ha : f a with
    | none =>
      rw [appendOrClear_of_none ha, List.filterMap_cons_none ha, List.filterMap_nil,
        List.append_nil, eq_comm, List.filterMap_eq_nil_iff]
      constructor
      · intro hbad
        refine ⟨List.pairwise_of_forall_mem_list fun x hx _ _ => ?_, by simp, fun x hx _ _ => ?_⟩
        · simp [hbad x hx]
        · simp [hbad x hx]
      · rintro ⟨-, -, hlast⟩ x hx
        have hx' := hlast x hx a (List.mem_singleton_self a)
        simpa [ha] using hx'
    | some b =>
      rw [appendOrClear_of_some ha, List.filterMap_cons_some ha, List.filterMap_nil,
        List.append_left_inj, ih]
      simp [ha]

/-- The loop ends with nothing exactly when there is no item or the last one is bad. -/
theorem foldl_appendOrClear_eq_nil_iff (f : α → Option β) (as : List α) :
    as.foldl (appendOrClear f) [] = [] ↔ as = [] ∨ ∃ a ∈ as.getLast?, f a = none := by
  induction as using List.reverseRecOn with
  | nil => simp
  | append_singleton as a _ =>
    rw [List.foldl_append, List.foldl_cons, List.foldl_nil]
    cases ha : f a with
    | none => simp [appendOrClear_of_none ha, ha]
    | some b => simp [appendOrClear_of_some ha, ha]

/-- No good item stands before a bad one, or the last item is bad. -/
def AllOrNothing (f : α → Option β) (as : List α) : Prop :=
  as.Pairwise (fun a a' => (f a).isSome = true → (f a').isSome = true) ∨
    ∃ a ∈ as.getLast?, f a = none

/-- The loop ends with nothing or with what it makes of all good items exactly when no good item
stands before a bad one or the last item is bad. -/
theorem foldl_appendOrClear_iff (f : α → Option β) (as : List α) :
    (as.foldl (appendOrClear f) [] = [] ∨ as.foldl (appendOrClear f) [] = as.filterMap f) ↔
      AllOrNothing f as := by
  rw [foldl_appendOrClear_eq_nil_iff, foldl_appendOrClear_eq_filterMap_iff, AllOrNothing]
  constructor
  · rintro ((rfl | hlast) | hpairwise)
    · exact .inl List.Pairwise.nil
    · exact .inr hlast
    · exact .inl hpairwise
  · rintro (hpairwise | hlast)
    · exact .inr hpairwise
    · exact .inl (.inr hlast)

/-- The condition only looks at which items are bad. -/
theorem allOrNothing_congr {f : α → Option β} {f' : α → Option γ}
    (h : ∀ a, (f a).isSome = (f' a).isSome) {as : List α} :
    AllOrNothing f as ↔ AllOrNothing f' as := by
  have hnone : ∀ a, f a = none ↔ f' a = none := by
    intro a
    rw [← Option.not_isSome_iff_eq_none, ← Option.not_isSome_iff_eq_none, h]
  simp only [AllOrNothing, h, hnone]

/-- The elements may be mapped first. -/
theorem allOrNothing_map {f : γ → Option β} {g : α → γ} {as : List α} :
    AllOrNothing f (as.map g) ↔ AllOrNothing (fun a => f (g a)) as := by
  simp [AllOrNothing, List.pairwise_map, List.getLast?_map]
