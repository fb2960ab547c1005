import TifaSoccer.ServerTheorems
import TifaSoccer.Views

/-!
# Decoding what the database stores

How the fields and the nested maps of a decoded match relate to the value it was decoded from.
`Value.field` reads one string of a value, and the decoders are described through it:

* `string_of_asDictionary` for scalar fields;
* `mem_nested` and `nested_mem` for the entries of a nested map;
* `mem_Position` and `Position_mem` for the decoded positions.
-/

namespace TifaSoccer

/-! ## Fields -/

/-- The string a value stores under a key. -/
def Value.field (v : Value) (key : String) : Option String :=
  (v.child key).root.bind Node.asString

/-- Nothing has no field. -/
@[simp] theorem Value.field_null (key : String) : Value.field .null key = none := rfl

/-- An optional string is read back. -/
@[simp] theorem asString_stringValue (s : Option String) :
    (stringValue s).root.bind Node.asString = s := by
  cases s <;> rfl

/-- An optional number is read back. -/
@[simp] theorem asInt_intValue (n : Option Int64) : (intValue n).root.bind Node.asInt = n := by
  cases n <;> rfl

/-- A string of a record the app has written. -/
theorem field_object {fields : List (String × Value)} (hnodup : (fields.map Prod.fst).Nodup)
    {key : String} {s : Option String} (hmem : (key, stringValue s) ∈ fields) :
    Value.field (.object fields) key = s := by
  rw [Value.field, Json.child_object hnodup hmem, asString_stringValue]

/-- The fields of a player have different keys. -/
theorem UserModel.asDictionary_nodup (self : UserModel) :
    (self.asDictionary.map Prod.fst).Nodup := by
  show (["email", "nameSurname", "position", "rate", "picture", "uuid", "authority"] :
    List String).Nodup
  decide

/-- The fields of a player on the pitch have different keys. -/
theorem UserPositionModel.asDictionary_nodup (self : UserPositionModel) :
    (self.asDictionary.map Prod.fst).Nodup := by
  show (["email", "nameSurname", "position", "rate", "picture", "uuid", "authority",
    "positionForMatch"] : List String).Nodup
  decide

/-- A dictionary is an object. -/
theorem asDictionary_eq_some {v : Value} {d : Dictionary} :
    v.asDictionary = some d ↔ v.root = some (.object d) := by
  unfold Value.asDictionary
  cases v.root with
  | none => simp
  | some t => cases t <;> simp [Node.asDictionary]

/-- A value with a child is an object. -/
theorem asDictionary_of_child {v : Value} {k : String} (h : v.child k ≠ .null) :
    ∃ d, v.asDictionary = some d := by
  cases hroot : v.root with
  | none => exact absurd (Json.ext (by simp [Json.child, Json.entries, hroot, JsonTree.entries,
      Entries.find, Json.null])) h
  | some t =>
    cases t with
    | leaf s => exact absurd (Json.ext (by simp [Json.child, Json.entries, hroot, JsonTree.entries,
        Entries.find, Json.null])) h
    | object es => exact ⟨es, asDictionary_eq_some.mpr hroot⟩

/-- A dictionary finds what the value it was read from has as a child. -/
theorem find_of_asDictionary {v : Value} {d : Dictionary} (h : v.asDictionary = some d)
    (key : String) : Entries.find key d = (v.child key).root := by
  have hentries : v.entries = d := by
    rw [Json.entries, asDictionary_eq_some.mp h]
    rfl
  show _ = Entries.find key v.entries
  rw [hentries]

/-- A missing string is decoded as the empty string. -/
theorem string_of_asDictionary {v : Value} {d : Dictionary} (h : v.asDictionary = some d)
    (key : String) : d.string key = (v.field key).getD "" := by
  rw [Dictionary.string, find_of_asDictionary h, Value.field]

/-- A missing number is decoded as zero. -/
theorem int_of_asDictionary {v : Value} {d : Dictionary} (h : v.asDictionary = some d)
    (key : String) : d.int key = ((v.child key).root.bind Node.asInt).getD 0 := by
  rw [Dictionary.int, find_of_asDictionary h]

/-- A missing flag is decoded as false. -/
theorem bool_of_asDictionary {v : Value} {d : Dictionary} (h : v.asDictionary = some d)
    (key : String) : d.bool key = ((v.child key).root.bind Node.asBool).getD false := by
  rw [Dictionary.bool, find_of_asDictionary h]

/-- A string that is not the default was stored. -/
theorem eq_some_of_getD {x : Option String} {s : String} (h : x.getD "" = s) (hs : s ≠ "") :
    x = some s := by
  cases x with
  | none => exact absurd h.symm hs
  | some _ => exact congrArg some h

/-! ## Nested maps -/

/-- The results of a loop that did not fail. -/
theorem mem_of_mapM_eq_some {α β : Type} {f : α → Option β} {xs : List α} {ys : List β}
    (h : xs.mapM f = some ys) {y : β} : y ∈ ys ↔ ∃ x ∈ xs, f x = some y := by
  induction xs generalizing ys with
  | nil =>
    simp only [List.mapM_nil] at h
    cases h
    simp
  | cons x xs ih =>
    simp only [List.mapM_cons, Option.bind_eq_bind, Option.bind_eq_some_iff, Option.pure_def] at h
    obtain ⟨y', hy', ys', hys', hcons⟩ := h
    cases hcons
    simp [ih hys', hy', eq_comm]

/-- A loop whose steps do not fail does not fail. -/
theorem mapM_eq_some_of_forall {α β : Type} {f : α → Option β} {xs : List α}
    (h : ∀ x ∈ xs, ∃ y, f x = some y) : ∃ ys, xs.mapM f = some ys := by
  induction xs with
  | nil => exact ⟨[], rfl⟩
  | cons x xs ih =>
    obtain ⟨y, hy⟩ := h x (List.mem_cons_self ..)
    obtain ⟨ys, hys⟩ := ih fun x' hx' => h x' (List.mem_cons_of_mem _ hx')
    exact ⟨y :: ys, by simp [hy, hys]⟩

/-- Each entry of a decoded nested map is a child of the value that is an object. -/
theorem mem_nested {v : Value} {d : Dictionary} (h : v.asDictionary = some d) {name k : String}
    {dk : Dictionary} (hmem : (k, dk) ∈ d.nested name) :
    Value.asDictionary ((v.child name).child k) = some dk := by
  unfold Dictionary.nested at hmem
  rw [find_of_asDictionary h] at hmem
  cases hchild : (v.child name).root with
  | none => simp [hchild] at hmem
  | some t =>
    cases t with
    | leaf s => simp [hchild, Node.asNested] at hmem
    | object es =>
      cases hmap : Node.asNested (.object es) with
      | none => simp [hchild, hmap] at hmem
      | some ys =>
        simp only [hchild, Option.bind_some, hmap, Option.getD_some] at hmem
        obtain ⟨⟨k', t⟩, ht, hk⟩ := (mem_of_mapM_eq_some hmap).mp hmem
        simp only [Option.map_eq_some_iff, Prod.mk.injEq] at hk
        obtain ⟨dk', hdk, rfl, rfl⟩ := hk
        have hentry : (k', t) ∈ (v.child name).entries := by
          rw [Json.entries, hchild]
          exact ht
        rw [Value.asDictionary, Json.mem_entries_iff.mp hentry]
        exact hdk

/-- Every child of a value is an object. -/
def Value.NestedObjects (v : Value) : Prop :=
  ∀ k, v.child k ≠ .null → ∃ d, Value.asDictionary (v.child k) = some d

/-- When all children are objects, each of them is an entry of the decoded nested map. -/
theorem nested_mem {v : Value} {d : Dictionary} (h : v.asDictionary = some d) {name k : String}
    (hall : Value.NestedObjects (v.child name)) {dk : Dictionary}
    (hk : Value.asDictionary ((v.child name).child k) = some dk) : (k, dk) ∈ d.nested name := by
  have hentry : (k, JsonTree.object dk) ∈ (v.child name).entries :=
    Json.mem_entries_iff.mpr (asDictionary_eq_some.mp hk)
  unfold Dictionary.nested
  rw [find_of_asDictionary h]
  cases hchild : (v.child name).root with
  | none => simp [Json.entries, hchild, JsonTree.entries] at hentry
  | some t =>
    cases t with
    | leaf s => simp [Json.entries, hchild, JsonTree.entries] at hentry
    | object es =>
      have hes : (v.child name).entries = es := by
        rw [Json.entries, hchild]
        rfl
      -- the cast succeeds because no entry is a leaf
      have hmap : ∃ ys, Node.asNested (.object es) = some ys := by
        refine mapM_eq_some_of_forall fun e he => ?_
        have hroot : ((v.child name).child e.1).root = some e.2 :=
          Json.mem_entries_iff.mp (hes ▸ he)
        have hne : (v.child name).child e.1 ≠ .null := by
          intro hnull
          rw [hnull] at hroot
          cases hroot
        obtain ⟨d', hd'⟩ := hall e.1 hne
        rw [Value.asDictionary, hroot, Option.bind_some] at hd'
        exact ⟨(e.1, d'), by rw [hd']; rfl⟩
      obtain ⟨ys, hys⟩ := hmap
      simp only [Option.bind_some, hys, Option.getD_some]
      rw [hes] at hentry
      exact (mem_of_mapM_eq_some hys).mpr ⟨(k, .object dk), hentry, rfl⟩

/-- The loop keeps the keys. -/
theorem keys_of_mapM {α β : Type} {f : String × α → Option β} {xs : List (String × α)}
    {ys : List (String × β)} (h : xs.mapM (fun e => (f e).map fun d => (e.1, d)) = some ys) :
    ys.map Prod.fst = xs.map Prod.fst := by
  induction xs generalizing ys with
  | nil =>
    simp only [List.mapM_nil] at h
    cases h
    rfl
  | cons x xs ih =>
    simp only [List.mapM_cons, Option.bind_eq_bind, Option.bind_eq_some_iff, Option.pure_def,
      Option.map_eq_some_iff] at h
    obtain ⟨_, ⟨d, -, rfl⟩, ys', hys', ⟨⟩⟩ := h
    rw [List.map_cons, List.map_cons, ih hys']

/-- A decoded nested map has the keys of the value, or none when a child is no object. -/
theorem nested_keys {v : Value} {d : Dictionary} (h : v.asDictionary = some d) (name : String) :
    (d.nested name).map Prod.fst = (v.child name).keys ∨ d.nested name = [] := by
  unfold Dictionary.nested
  rw [find_of_asDictionary h, Json.keys, Json.entries]
  cases hchild : (v.child name).root with
  | none => exact .inr rfl
  | some t =>
    cases t with
    | leaf s => exact .inr rfl
    | object es =>
      rw [Option.bind_some]
      cases hmap : Node.asNested (.object es) with
      | none => exact .inr rfl
      | some ys => exact .inl (keys_of_mapM hmap)

/-- The keys of a map whose children are objects. -/
theorem nested_keys_of_objects {v : Value} {d : Dictionary} (h : v.asDictionary = some d)
    {name : String} (hall : Value.NestedObjects (v.child name)) :
    (d.nested name).map Prod.fst = (v.child name).keys := by
  rcases nested_keys h name with hkeys | hnil
  · exact hkeys
  · rw [hnil, List.map_nil]
    refine (List.eq_nil_iff_forall_not_mem.mpr fun k hk => ?_).symm
    obtain ⟨dk, hdk⟩ := hall k (Json.mem_keys_iff.mp hk)
    have hmem := nested_mem h hall hdk
    rw [hnil] at hmem
    cases hmem

/-- No key of a map occurs twice. -/
theorem nested_keys_nodup {v : Value} {d : Dictionary} (h : v.asDictionary = some d)
    (name : String) : ((d.nested name).map Prod.fst).Nodup := by
  rcases nested_keys h name with hkeys | hnil
  · rw [hkeys]
    exact (v.child name).keys_nodup
  · rw [hnil]
    exact List.nodup_nil

/-- A nested map of objects is decoded to the entries it stores, in some order. -/
theorem nested_perm {v : Value} {d : Dictionary} (h : v.asDictionary = some d) {name : String}
    (hall : Value.NestedObjects (v.child name)) {es : List (String × Dictionary)}
    (hkeys : (es.map Prod.fst).Nodup)
    (hes : ∀ k dk, (k, dk) ∈ es ↔ Value.asDictionary ((v.child name).child k) = some dk) :
    (d.nested name).Perm es := by
  refine (List.perm_ext_iff_of_nodup (nested_keys_nodup h name).of_map hkeys.of_map).mpr ?_
  rintro ⟨k, dk⟩
  rw [hes]
  exact ⟨mem_nested h, nested_mem h hall⟩

/-- Decoded entries have different keys in every order, when they have them in one. -/
theorem nodup_iterate {β γ : Type} (order : DictOrder) (name : String)
    (es : List (String × Dictionary)) {f : Dictionary → β} {key : β → γ}
    (h : (es.map fun dic => key (f dic.2)).Nodup) :
    (((order.iterate name es).map fun dic => f dic.2).map key).Nodup := by
  rw [List.map_map]
  exact ((order.perm name es).map fun dic => key (f dic.2)).nodup_iff.mpr h

/-! ## Positions -/

/-- Each decoded position comes from a child of `Positions`. -/
theorem mem_Position {v : Value} {d : Dictionary} (h : v.asDictionary = some d) {order : DictOrder}
    {p : UserPositionModel} (hp : p ∈ (MatchsModel.init order d).Position.getD []) :
    ∃ k dk, Value.asDictionary ((v.child "Positions").child k) = some dk ∧
      p = UserPositionModel.init dk := by
  obtain ⟨⟨k, dk⟩, hmem, rfl⟩ := List.mem_map.mp hp
  exact ⟨k, dk, mem_nested h ((order.perm _ _).mem_iff.mp hmem), rfl⟩

/-- When every child of `Positions` is an object, each of them is decoded. -/
theorem Position_mem {v : Value} {d : Dictionary} (h : v.asDictionary = some d) (order : DictOrder)
    (hall : Value.NestedObjects (v.child "Positions")) {k : String} {dk : Dictionary}
    (hk : Value.asDictionary ((v.child "Positions").child k) = some dk) :
    UserPositionModel.init dk ∈ (MatchsModel.init order d).Position.getD [] :=
  List.mem_map.mpr ⟨(k, dk), (order.perm _ _).mem_iff.mpr (nested_mem h hall hk), rfl⟩

/-- The uid of a decoded player on the pitch. -/
theorem uuid_init {v : Value} {d : Dictionary} (h : v.asDictionary = some d) :
    (UserPositionModel.init d).uuid = some ((v.field "uuid").getD "") := by
  rw [← string_of_asDictionary h]
  rfl

/-- The position of a decoded player on the pitch. -/
theorem positionForMatch_init {v : Value} {d : Dictionary} (h : v.asDictionary = some d) :
    (UserPositionModel.init d).positionForMatch = some ((v.field "positionForMatch").getD "") := by
  rw [← string_of_asDictionary h]
  rfl

end TifaSoccer
