import TifaSoccer.Database.Reference
import TifaSoccer.IsolationTheorems

/-!
# Paths, references and updates with several paths

The operations of a path are those of the list of its components, and a printed path is read back
as an equal one.
-/

namespace TifaSoccer

namespace FPath

/-! ## Components -/

/-- `length` counts the pieces from the index of the path on. -/
theorem length_eq (p : FPath) : p.length = p.components.length := by
  rw [components, List.length_drop]
  rfl

/-- The front of a path is its first piece, if there is one. -/
theorem getFront_eq (p : FPath) : p.getFront = p.components.head? := by
  unfold getFront components
  split_ifs with h
  · rw [List.drop_eq_nil_of_le h, List.head?_nil]
  · rw [List.head?_drop]

/-- A path without its front has the other pieces. -/
theorem components_popFront (p : FPath) : p.popFront.components = p.components.tail := by
  have hle := p.pieceNum_le
  show p.pieces.drop (if p.pieceNum < p.pieces.length then p.pieceNum + 1 else p.pieceNum) =
    (p.pieces.drop p.pieceNum).tail
  split_ifs with h
  · rw [List.tail_drop]
  · rw [List.drop_eq_nil_of_le (by omega), List.tail_nil]

/-- A path is empty if it has no piece. -/
theorem isEmpty_iff (p : FPath) : p.isEmpty = true ↔ p.components = [] := by
  rw [isEmpty, decide_eq_true_iff, components, List.drop_eq_nil_iff]

/-- The back of a path is its last piece, if there is one. -/
theorem getBack_eq (p : FPath) : p.getBack = p.components.getLast? := by
  unfold getBack components
  rw [List.getLast?_drop]
  split_ifs with h₁ h₂ h₂
  · omega
  · rfl
  · rfl
  · omega

/-- A path has no parent exactly if it is empty. -/
theorem parent_cases (p : FPath) :
    p.components = [] ∧ p.parent = none ∨
    p.components ≠ [] ∧ ∃ q, p.parent = some q ∧ q.components = p.components.dropLast := by
  unfold parent
  split_ifs with h
  · exact .inl ⟨List.drop_eq_nil_of_le h, rfl⟩
  · refine .inr ⟨?_, _, rfl, rfl⟩
    rw [components, ne_eq, List.drop_eq_nil_iff]
    omega

/-- A child path has the pieces of the one path and then of the other. -/
theorem components_child (p q : FPath) : (p.child q).components = p.components ++ q.components :=
  rfl

/-- A string below a path adds the pieces of the string. -/
theorem components_childFromString (p : FPath) (childPath : NSString) :
    (p.childFromString childPath).components = p.components ++ newPieces childPath := rfl

/-- The loops of `contains` and `isEqual`. -/
theorem all_zip_iff {a b : List NSString} (h : a.length ≤ b.length) :
    ((a.zip b).all fun segs => decide (segs.1 = segs.2)) = true ↔ a <+: b := by
  induction a generalizing b with
  | nil => simp
  | cons seg a ih =>
    cases b with
    | nil => simp at h
    | cons otherSeg b =>
      have hle : a.length ≤ b.length := by simpa using h
      rw [List.zip_cons_cons, List.all_cons, Bool.and_eq_true, ih hle, List.cons_prefix_cons,
        decide_eq_true_iff]

/-- A path contains the paths that start with its pieces. -/
theorem contains_iff (p other : FPath) :
    p.contains other = true ↔ p.components <+: other.components := by
  unfold contains
  rw [length_eq, length_eq]
  split_ifs with h
  · refine iff_of_false (by simp) fun hp => ?_
    have := hp.length_le
    omega
  · exact all_zip_iff (by omega)

/-- Two paths are equal if they have the same pieces. -/
theorem isEqual_iff (p other : FPath) :
    p.isEqual other = true ↔ p.components = other.components := by
  unfold isEqual
  rw [length_eq, length_eq]
  split_ifs with h
  · exact iff_of_false (by simp) fun heq => h (by rw [heq])
  · have hlen : p.components.length = other.components.length := by omega
    rw [all_zip_iff hlen.le]
    exact ⟨fun hp => hp.eq_of_length hlen, fun heq => heq ▸ List.prefix_rfl⟩

/-- A path is found relative to those above it. -/
theorem relativePathFrom_cases (outer inner : FPath) :
    (∃ r, relativePathFrom outer inner = .ok r ∧
      inner.components = outer.components ++ r.components) ∨
    (∃ e, relativePathFrom outer inner = .error e ∧
      ¬ outer.components <+: inner.components) := by
  induction hcomponents : outer.components generalizing outer inner with
  | nil =>
    have hfront : outer.getFront = none := by rw [getFront_eq, hcomponents, List.head?_nil]
    refine .inl ⟨inner, ?_, rfl⟩
    rw [relativePathFrom]
    split
    · rfl
    · next h => rw [hfront] at h; cases h
  | cons outerFront rest ih =>
    have hfront : outer.getFront = some outerFront := by
      rw [getFront_eq, hcomponents, List.head?_cons]
    have hpop : outer.popFront.components = rest := by
      rw [components_popFront, hcomponents, List.tail_cons]
    rw [relativePathFrom]
    split
    · next h => rw [hfront] at h; cases h
    · next front h =>
      obtain rfl : outerFront = front := Option.some.inj (hfront.symm.trans h)
      split_ifs with hinner
      · -- both fronts are dropped
        have htail : inner.components = outerFront :: inner.popFront.components := by
          rw [getFront_eq] at hinner
          rw [components_popFront]
          exact List.eq_cons_of_mem_head? hinner
        rcases ih outer.popFront inner.popFront hpop with ⟨r, hr, heq⟩ | ⟨e, he, hnot⟩
        · exact .inl ⟨r, hr, by rw [htail, heq, List.cons_append]⟩
        · refine .inr ⟨e, he, fun hp => hnot ?_⟩
          rw [htail] at hp
          exact (List.cons_prefix_cons.mp hp).2
      · refine .inr ⟨_, rfl, fun hp => hinner ?_⟩
        obtain ⟨r, hr⟩ := hp
        rw [getFront_eq, ← hr, List.cons_append, List.head?_cons]

/-! ## Printed paths -/

/-- Pieces joined with slashes are cut there again, and the empty ones are dropped. -/
theorem newPieces_intercalate {pieces : List NSString} (h : ∀ piece ∈ pieces, 47 ∉ piece)
    (hne : pieces ≠ []) :
    newPieces ([47].intercalate pieces) = pieces.filter fun piece => decide (piece.length > 0) := by
  rw [newPieces, NSString.componentsSeparatedBySlash, List.splitOn_intercalate 47 h hne]

/-- A string without a slash is one piece. -/
theorem newPieces_of_whole {piece : NSString} (hne : piece ≠ []) (hslash : 47 ∉ piece) :
    newPieces piece = [piece] := by
  rw [newPieces, NSString.componentsSeparatedBySlash, List.splitOn_eq_singleton hslash,
    List.filter_cons_of_pos (by simpa [List.length_pos_iff] using hne), List.filter_nil]

/-- No piece of a path is empty. -/
theorem filter_components (p : FPath) :
    (p.components.filter fun piece => decide (piece.length > 0)) = p.components :=
  List.filter_eq_self.mpr fun piece hpiece =>
    decide_eq_true (List.length_pos_iff.mpr (p.whole_components piece hpiece).1)

/-- The loop of `wireFormat` with its accumulator: it joins with slashes. -/
theorem foldl_slash (pathString : NSString) (pieces : List NSString) :
    pieces.foldl (fun pathString piece => pathString ++ [47] ++ piece) pathString =
      [47].intercalate (pathString :: pieces) := by
  induction pieces generalizing pathString with
  | nil => simp
  | cons piece pieces ih =>
    rw [List.foldl_cons, ih]
    cases pieces with
    | nil => simp
    | cons piece' pieces => simp

/-- The loop of `wireFormat` joins the pieces with slashes. -/
theorem wireLoop_eq (pieces : List NSString) : wireLoop pieces = [47].intercalate pieces := by
  induction pieces with
  | nil => rfl
  | cons piece pieces ih =>
    cases pieces with
    | nil => simp [wireLoop]
    | cons piece' pieces => rw [wireLoop, ih, List.intercalate_cons_cons]; simp

/-- Joining after an empty piece puts a slash before every other one. -/
theorem intercalate_nil_cons (pieces : List NSString) :
    [47].intercalate ([] :: pieces) = pieces.flatMap fun piece => 47 :: piece := by
  induction pieces with
  | nil => rfl
  | cons piece pieces ih =>
    cases pieces with
    | nil => simp
    | cons piece' pieces =>
      rw [List.flatMap_cons, ← ih]
      simp

/-- The root is printed as a slash. -/
theorem toString_of_nil {p : FPath} (h : p.components = []) : p.toString = [47] := by
  rw [toString, toStringWithTrailingSlash, h]
  rfl

/-- Any other path is printed with a slash before every piece. -/
theorem toString_of_ne_nil {p : FPath} (h : p.components ≠ []) :
    p.toString = p.components.flatMap fun piece => 47 :: piece := by
  unfold toString toStringWithTrailingSlash
  simp only [foldl_slash, intercalate_nil_cons]
  obtain ⟨piece, pieces, hcomponents⟩ := List.exists_cons_of_ne_nil h
  rw [hcomponents, if_neg (by simp), if_neg (by simp)]

/-- A printed path splits into its components, with or without a slash at its end. -/
theorem newPieces_toString (p : FPath) (trailingSlash : Bool) :
    newPieces (p.toStringWithTrailingSlash trailingSlash) = p.components := by
  have hwhole : ∀ piece ∈ p.components, 47 ∉ piece := fun piece hpiece =>
    (p.whole_components piece hpiece).2
  unfold toStringWithTrailingSlash
  simp only [foldl_slash]
  split_ifs with hempty hslash
  · -- nothing was printed
    have hnil : p.components = [] := by
      cases hcomponents : p.components with
      | nil => rfl
      | cons piece pieces => simp [hcomponents] at hempty
    rw [hnil]
    decide
  · have hconcat : [47].intercalate ([] :: p.components) ++ [47] =
        [47].intercalate ([] :: (p.components ++ [[]])) := by
      rw [← foldl_slash, ← foldl_slash, List.foldl_append]
      simp
    have hwhole' : ∀ piece ∈ [] :: (p.components ++ [[]]), 47 ∉ piece := by
      simpa [or_imp, forall_and] using hwhole
    rw [hconcat, newPieces_intercalate hwhole' (by simp), List.filter_cons_of_neg (by simp),
      List.filter_append, filter_components]
    simp
  · rw [newPieces_intercalate (by simpa using hwhole) (by simp),
      List.filter_cons_of_neg (by simp), filter_components]

/-- The wire format of a path is cut into the pieces of the path. -/
theorem newPieces_wireFormat (p : FPath) : newPieces p.wireFormat = p.components := by
  unfold wireFormat
  split_ifs with hempty
  · rw [(isEmpty_iff p).mp hempty]
    decide
  · have hne : p.components ≠ [] := fun hnil => hempty ((isEmpty_iff p).mpr hnil)
    rw [wireLoop_eq, newPieces_intercalate
      (fun piece hpiece => (p.whole_components piece hpiece).2) hne, filter_components]

/-- Paths are printed and read back, whichever way they were cut and put together: the printed
forms of a path are those of an equal path, appending a string is appending the path it spells,
and a path is contained in another exactly if it can be found relative to it, which is then what
has to be appended to it. -/
theorem print_parse (p q : FPath) (string : NSString) :
    (pathWithString p.toString).isEqual p = true ∧
    (pathWithString (p.toStringWithTrailingSlash true)).isEqual p = true ∧
    (pathWithString p.wireFormat).isEqual p = true ∧
    (p.childFromString string).isEqual (p.child (pathWithString string)) = true ∧
    (p.childFromString q.toString).isEqual (p.child q) = true ∧
    (p.contains q = true ↔ ∃ r, relativePathFrom p q = .ok r) ∧
    (∀ r, relativePathFrom p q = .ok r → (p.child r).isEqual q = true) ∧
    (∀ r, p.parent = some r → ∃ back, p.getBack = some back ∧
      (r.childFromString back).isEqual p = true) := by
  refine ⟨?_, ?_, ?_, ?_, ?_, ?_, ?_, ?_⟩
  · rw [isEqual_iff]
    exact newPieces_toString p false
  · rw [isEqual_iff]
    exact newPieces_toString p true
  · rw [isEqual_iff]
    exact newPieces_wireFormat p
  · rw [isEqual_iff]
    rfl
  · rw [isEqual_iff, components_childFromString, toString, newPieces_toString, components_child]
  · rw [contains_iff]
    rcases relativePathFrom_cases p q with ⟨r, hr, heq⟩ | ⟨e, he, hnot⟩
    · exact iff_of_true ⟨r.components, heq.symm⟩ ⟨r, hr⟩
    · refine iff_of_false hnot ?_
      rintro ⟨r, hr⟩
      rw [he] at hr
      cases hr
  · intro r hr
    rcases relativePathFrom_cases p q with ⟨r', hr', heq⟩ | ⟨e, he, -⟩
    · obtain rfl : r' = r := by
        rw [hr] at hr'
        exact (Except.ok.inj hr').symm
      rw [isEqual_iff, components_child, heq]
    · rw [he] at hr
      cases hr
  · intro r hr
    rcases parent_cases p with ⟨-, hnone⟩ | ⟨hne, q', hq', heq⟩
    · rw [hnone] at hr
      cases hr
    · obtain rfl : q' = r := by
        rw [hr] at hq'
        exact (Option.some.inj hq').symm
      have hback : p.getBack = some (p.components.getLast hne) := by
        rw [getBack_eq, List.getLast?_eq_getLast_of_ne_nil hne]
      have hwhole := p.whole_components _ (List.getLast_mem hne)
      refine ⟨_, hback, ?_⟩
      rw [isEqual_iff, components_childFromString, heq, newPieces_of_whole hwhole.1 hwhole.2,
        List.dropLast_append_getLast hne]

/-- A string is cut at every slash in it. -/
theorem newPieces_append (a b : NSString) :
    newPieces (a ++ 47 :: b) = newPieces a ++ newPieces b := by
  simp only [newPieces, NSString.componentsSeparatedBySlash, List.splitOn_append_cons_self,
    List.filter_append]

/-- A slash at the front changes nothing. -/
theorem newPieces_cons_slash (string : NSString) : newPieces (47 :: string) = newPieces string :=
  newPieces_append [] string

/-- Slashes at the front, however many, change nothing. -/
theorem newPieces_dropWhile (string : NSString) :
    newPieces (string.dropWhile fun c => decide (c = 47)) = newPieces string := by
  induction string with
  | nil => rfl
  | cons c string ih =>
    by_cases hc : c = 47
    · subst hc
      rw [List.dropWhile_cons_of_pos (by simp), ih, newPieces_cons_slash]
    · rw [List.dropWhile_cons_of_neg (by simpa using hc)]

/-- The pieces have only characters of the string. -/
theorem mem_of_mem_newPieces {string piece : NSString} (h : piece ∈ newPieces string) {c : ℕ}
    (hc : c ∈ piece) : c ∈ string :=
  (mem_of_mem_componentsSeparatedBySlash (List.mem_filter.mp h).1 hc).1

end FPath

/-! ## References -/

namespace FValidation

/-- What the regular expression for paths accepts. -/
theorem isValidPathString_iff (pathString : NSString) :
    isValidPathString pathString = true ↔
      pathString ≠ [] ∧ ∀ c ∈ pathString, c ∉ kInvalidPathCharacters := by
  simp [isValidPathString, List.length_eq_zero_iff]

/-- What the regular expression for keys accepts. -/
theorem isValidKey_iff (key : NSString) :
    isValidKey key = true ↔ key ≠ [] ∧ ∀ c ∈ key, c ∉ kInvalidKeyCharacters := by
  simp [isValidKey, List.length_pos_iff]

/-- The pieces of a string that is let through are valid keys. -/
theorem isValidKey_of_mem_newPieces {string piece : NSString}
    (h : ∀ c ∈ string, c ∉ kInvalidPathCharacters) (hpiece : piece ∈ FPath.newPieces string) :
    isValidKey piece = true := by
  obtain ⟨hne, hslash⟩ := FPath.whole_newPieces string piece hpiece
  refine (isValidKey_iff piece).mpr ⟨hne, fun c hc => ?_⟩
  have hchar := h c (FPath.mem_of_mem_newPieces hpiece hc)
  have hc47 : c ≠ 47 := fun heq => hslash (heq ▸ hc)
  simp only [kInvalidPathCharacters, List.mem_cons, List.not_mem_nil, or_false, not_or] at hchar
  simp only [kInvalidKeyCharacters, List.mem_cons, List.not_mem_nil, or_false, not_or]
  exact ⟨hchar.1, hchar.2.1, hchar.2.2.1, hchar.2.2.2.1, hchar.2.2.2.2, hc47⟩

/-- At the end of a line there is no slash left. -/
theorem not_mem_of_atDollar {rest : NSString} (h : atDollar rest = true) : 47 ∉ rest := by
  simp only [atDollar, List.contains_iff_mem] at h
  revert rest
  decide

/-- What the regular expression for `.info` matches. -/
theorem replaceDotInfo_cases (pathString : NSString) :
    replaceDotInfo pathString = pathString ∨
    (∃ rest, replaceDotInfo pathString = 47 :: rest ∧
      FPath.newPieces pathString = kDotInfoPrefix :: FPath.newPieces rest) ∨
    ∃ rest, atDollar rest = true ∧ replaceDotInfo pathString = 47 :: rest ∧
      FPath.newPieces pathString = [kDotInfoPrefix ++ rest] := by
  have hinfo : kDotInfoPrefix ≠ [] ∧ 47 ∉ kDotInfoPrefix := by decide
  have hmatch : ∀ rest,
      (pathString.dropWhile fun c => decide (c = 47)).dropPrefix? kDotInfoPrefix = some rest →
      FPath.newPieces pathString = FPath.newPieces (kDotInfoPrefix ++ rest) := by
    intro rest hrest
    obtain ⟨start, hstart, heq⟩ := List.dropPrefix?_eq_some_iff.mp hrest
    rw [← FPath.newPieces_dropWhile, hstart, eq_of_beq heq]
  unfold replaceDotInfo
  split
  · next rest hrest =>
    refine .inr (.inl ⟨rest, rfl, ?_⟩)
    rw [hmatch _ hrest, FPath.newPieces_append, FPath.newPieces_of_whole hinfo.1 hinfo.2]
    rfl
  · next rest _ hrest =>
    split_ifs with hdollar
    · refine .inr (.inr ⟨rest, hdollar, rfl, ?_⟩)
      rw [hmatch _ hrest, FPath.newPieces_of_whole]
      · simp [hinfo.1]
      · simp [hinfo.2, not_mem_of_atDollar hdollar]
    · exact .inl rfl
  · exact .inl rfl

/-- The first component of a path from the root that is let through: a valid key, or `.info`,
which a line terminator may follow if nothing else does. -/
def ValidFront (front : NSString) : Prop :=
  isValidKey front = true ∨ ∃ rest, atDollar rest = true ∧ front = kDotInfoPrefix ++ rest

/-- The components of a reference. -/
def ValidComponents (components : List NSString) : Prop :=
  (∀ front ∈ components.head?, ValidFront front) ∧
  ∀ piece ∈ components.tail, isValidKey piece = true

/-- Pieces that are valid keys are valid as a path. -/
theorem validComponents_of_valid {components : List NSString}
    (h : ∀ piece ∈ components, isValidKey piece = true) : ValidComponents components :=
  ⟨fun front hfront => .inl (h front (List.mem_of_mem_head? hfront)),
    fun piece hpiece => h piece (List.mem_of_mem_tail hpiece)⟩

/-- The check of a path string raises unless the string is valid. -/
theorem validPathString_eq_ok {fn : String} {pathString : NSString} :
    validPathString fn pathString = .ok () ↔ isValidPathString pathString = true := by
  unfold validPathString
  split_ifs with h
  · exact iff_of_true rfl h
  · exact iff_of_false (fun heq => by cases heq) h

/-- A root path that passes the check has valid components. -/
theorem validComponents_of_root {fn : String} {pathString : NSString}
    (h : validRootPathString fn pathString = .ok ()) :
    ValidComponents (FPath.newPieces pathString) := by
  unfold validRootPathString at h
  rw [validPathString_eq_ok, isValidPathString_iff] at h
  obtain ⟨-, hchars⟩ := h
  split_ifs at hchars with hdot
  · rcases replaceDotInfo_cases pathString with heq | ⟨rest, heq, hpieces⟩ |
      ⟨rest, hdollar, -, hpieces⟩
    · rw [heq] at hchars
      exact validComponents_of_valid fun piece hpiece => isValidKey_of_mem_newPieces hchars hpiece
    · rw [heq] at hchars
      rw [hpieces]
      refine ⟨fun front hfront => .inr ⟨[], by decide, ?_⟩, fun piece hpiece => ?_⟩
      · simpa using hfront.symm
      · exact isValidKey_of_mem_newPieces (fun c hc => hchars c (List.mem_cons_of_mem _ hc)) hpiece
    · rw [hpieces]
      refine ⟨fun front hfront => .inr ⟨rest, hdollar, ?_⟩, fun piece hpiece => ?_⟩
      · simpa using hfront.symm
      · cases hpiece
  · exact validComponents_of_valid fun piece hpiece => isValidKey_of_mem_newPieces hchars hpiece

/-- The replacement takes `/.info` away from the front of a printed path. -/
theorem replaceDotInfo_printed (pieces : List NSString) :
    replaceDotInfo (47 :: (kDotInfoPrefix ++ pieces.flatMap fun piece => 47 :: piece)) =
      47 :: (pieces.flatMap fun piece => 47 :: piece).tail := by
  have hdrop : ∀ rest : NSString,
      (List.dropWhile (fun c => decide (c = 47)) (47 :: (kDotInfoPrefix ++ rest))).dropPrefix?
        kDotInfoPrefix = some rest := fun rest =>
    List.dropPrefix?_eq_some_iff.mpr ⟨kDotInfoPrefix, rfl, beq_self_eq_true _⟩
  unfold replaceDotInfo
  rw [hdrop]
  cases pieces with
  | nil => rfl
  | cons piece pieces => rfl

/-- A valid key has no character that is forbidden in a path. -/
theorem not_mem_of_isValidKey {key : NSString} (h : isValidKey key = true) {c : ℕ} (hc : c ∈ key) :
    c ∉ kInvalidPathCharacters := by
  intro hbad
  refine ((isValidKey_iff key).mp h).2 c hc ?_
  simp only [kInvalidPathCharacters, List.mem_cons, List.not_mem_nil, or_false] at hbad
  simp only [kInvalidKeyCharacters, List.mem_cons, List.not_mem_nil, or_false]
  omega

/-- A path printed from valid keys has no character that is forbidden in a path. -/
theorem not_mem_of_mem_printed {pieces : List NSString}
    (h : ∀ piece ∈ pieces, isValidKey piece = true) {c : ℕ}
    (hc : c ∈ pieces.flatMap fun piece => 47 :: piece) : c ∉ kInvalidPathCharacters := by
  obtain ⟨piece, hpiece, hmem⟩ := List.mem_flatMap.mp hc
  rcases List.mem_cons.mp hmem with rfl | hmem
  · decide
  · exact not_mem_of_isValidKey (h piece hpiece) hmem

/-- The printed path of a reference is let through, unless `.info` and a line terminator are its
first component. -/
theorem validRootPathString_printed {p : FPath} (h : ValidComponents p.components)
    (hfront : ∀ rest, p.getFront = some (kDotInfoPrefix ++ rest) → rest = []) (fn : String) :
    validRootPathString fn p.toString = .ok () := by
  unfold validRootPathString
  rw [validPathString_eq_ok, isValidPathString_iff]
  cases hcomponents : p.components with
  | nil =>
    rw [FPath.toString_of_nil hcomponents]
    decide
  | cons front pieces =>
    rw [hcomponents] at h
    rw [FPath.getFront_eq, hcomponents] at hfront
    rw [FPath.toString_of_ne_nil (by simp [hcomponents]), hcomponents]
    rcases h.1 front rfl with hvalid | ⟨rest, -, hrest⟩
    · have hall : ∀ piece ∈ front :: pieces, isValidKey piece = true := by
        intro piece hpiece
        rcases List.mem_cons.mp hpiece with rfl | hpiece
        · exact hvalid
        · exact h.2 piece hpiece
      have hchars : ∀ c ∈ (front :: pieces).flatMap fun piece => 47 :: piece,
          c ∉ kInvalidPathCharacters := fun c hc => not_mem_of_mem_printed hall hc
      rw [if_neg]
      · exact ⟨by simp, hchars⟩
      · -- there is no dot
        intro hdot
        exact hchars 46 (hdot.subset (by decide)) (by decide)
    · obtain rfl := hfront rest (congrArg some hrest)
      rw [List.append_nil] at hrest
      subst hrest
      rw [List.flatMap_cons, List.cons_append, if_pos ⟨[47], _, rfl⟩, replaceDotInfo_printed]
      refine ⟨by simp, fun c hc => ?_⟩
      rcases List.mem_cons.mp hc with rfl | hc
      · decide
      · exact not_mem_of_mem_printed h.2 (List.mem_of_mem_tail hc)

end FValidation

namespace FIRDatabaseReference

open FValidation

/-- The references that can be obtained from a database. -/
inductive Obtained : FIRDatabaseReference → Prop
  | reference : Obtained reference
  | referenceWithPath {path : NSString} {ref : FIRDatabaseReference}
      (h : referenceWithPath path = .ok ref) : Obtained ref
  | child {ref ref' : FIRDatabaseReference} {pathString : NSString} (hobtained : Obtained ref)
      (h : ref.child pathString = .ok ref') : Obtained ref'
  | parent {ref ref' : FIRDatabaseReference} (hobtained : Obtained ref)
      (h : ref.parent = some ref') : Obtained ref'
  | root {ref : FIRDatabaseReference} (hobtained : Obtained ref) : Obtained ref.root

/-- The path of the parent is valid too. -/
theorem validComponents_dropLast {components : List NSString} (h : ValidComponents components) :
    ValidComponents components.dropLast := by
  cases components with
  | nil => exact h
  | cons front pieces =>
    cases pieces with
    | nil => exact validComponents_of_valid (by simp)
    | cons piece pieces =>
      refine ⟨fun front' hfront' => h.1 front' hfront', fun piece' hpiece' => ?_⟩
      exact h.2 piece' (List.mem_of_mem_dropLast hpiece')

/-- What `child:` does when it does not raise. -/
theorem child_cases {ref ref' : FIRDatabaseReference} {pathString : NSString}
    (h : ref.child pathString = .ok ref') :
    ref'.path.components = ref.path.components ++ FPath.newPieces pathString ∧
    (ref.path.components = [] ∧ validRootPathString "child:" pathString = .ok () ∨
      ref.path.components ≠ [] ∧ isValidPathString pathString = true) := by
  obtain ⟨⟨⟩, hvalid, rfl⟩ := map_eq_ok.mp h
  refine ⟨rfl, ?_⟩
  rw [FPath.getFront_eq] at hvalid
  split_ifs at hvalid with hroot
  · exact .inl ⟨List.head?_eq_none_iff.mp hroot, hvalid⟩
  · refine .inr ⟨fun hnil => hroot (List.head?_eq_none_iff.mpr hnil), ?_⟩
    exact validPathString_eq_ok.mp hvalid

/-- The invariant: every reference a program obtains has a valid path. -/
theorem Obtained.validComponents {ref : FIRDatabaseReference} (h : Obtained ref) :
    ValidComponents ref.path.components := by
  induction h with
  | reference => exact validComponents_of_valid (by decide)
  | @referenceWithPath path ref h =>
    obtain ⟨⟨⟩, hvalid, rfl⟩ := map_eq_ok.mp h
    exact validComponents_of_root hvalid
  | @child ref ref' pathString hobtained h ih =>
    obtain ⟨hcomponents, ⟨hnil, hvalid⟩ | ⟨hne, hvalid⟩⟩ := child_cases h
    · rw [hcomponents, hnil, List.nil_append]
      exact validComponents_of_root hvalid
    · obtain ⟨front, pieces, hfront⟩ := List.exists_cons_of_ne_nil hne
      rw [hfront] at ih
      rw [hcomponents, hfront]
      refine ⟨fun front' hfront' => ih.1 front' hfront', fun piece hpiece => ?_⟩
      rcases List.mem_append.mp hpiece with hpiece | hpiece
      · exact ih.2 piece hpiece
      · exact isValidKey_of_mem_newPieces ((isValidPathString_iff _).mp hvalid).2 hpiece
  | @parent ref ref' hobtained h ih =>
    obtain ⟨path, hpath, rfl⟩ := Option.map_eq_some_iff.mp h
    rcases FPath.parent_cases ref.path with ⟨-, hnone⟩ | ⟨-, path', hpath', hcomponents⟩
    · rw [hnone] at hpath
      cases hpath
    · obtain rfl : path' = path := by
        rw [hpath] at hpath'
        exact (Option.some.inj hpath').symm
      rw [hcomponents]
      exact validComponents_dropLast ih
  | root hobtained ih =>
    show ValidComponents (FPath.initWith []).components
    exact validComponents_of_valid (by decide)

/-- `.info` is the first component, and a line terminator follows it: `$` matches before one. -/
def InfoLine (ref : FIRDatabaseReference) : Prop :=
  ∃ rest, rest ≠ [] ∧ ref.path.getFront = some (kDotInfoPrefix ++ rest)

/-- However a reference was obtained, all its components after the first are valid keys; the first
is one too if a write at the reference is let through, and the printed path leads back to the
reference. A first component `.info` with a line terminator is the exception to both. -/
theorem obtained_valid {ref : FIRDatabaseReference} (h : Obtained ref) :
    (∀ piece ∈ ref.path.components.tail, isValidKey piece = true) ∧
    (∀ fn, writablePath fn ref.path = .ok () → ¬ InfoLine ref →
      ∀ piece ∈ ref.path.components, isValidKey piece = true) ∧
    (¬ InfoLine ref → ∃ ref', referenceWithPath ref.path.toString = .ok ref' ∧
      ref'.path.isEqual ref.path = true) := by
  have hvalid := h.validComponents
  have hinfo : ¬ InfoLine ref →
      ∀ rest, ref.path.getFront = some (kDotInfoPrefix ++ rest) → rest = [] := by
    intro hline rest hrest
    by_contra hne
    exact hline ⟨rest, hne, hrest⟩
  refine ⟨hvalid.2, ?_, ?_⟩
  · intro fn hwritable hline piece hpiece
    obtain ⟨front, pieces, hcomponents⟩ := List.exists_cons_of_ne_nil (List.ne_nil_of_mem hpiece)
    have hfront : ref.path.getFront = some front := by
      rw [FPath.getFront_eq, hcomponents, List.head?_cons]
    rw [hcomponents] at hvalid hpiece
    rcases List.mem_cons.mp hpiece with rfl | hpiece
    · rcases hvalid.1 piece rfl with hkey | ⟨rest, -, rfl⟩
      · exact hkey
      · -- `.info` itself is refused
        obtain rfl := hinfo hline rest hfront
        rw [List.append_nil] at hfront
        rw [writablePath, if_pos hfront] at hwritable
        cases hwritable
    · exact hvalid.2 piece hpiece
  · intro hline
    have hprinted := validRootPathString_printed hvalid (hinfo hline) "referenceWithPath"
    refine ⟨⟨.initWith ref.path.toString⟩, ?_, ?_⟩
    · rw [referenceWithPath, hprinted]
      rfl
    · rw [FPath.isEqual_iff]
      exact FPath.newPieces_toString ref.path false

/-- The reference of the path `a/b`. -/
def sampleReference : FIRDatabaseReference := ⟨.initWith (.ofString "a/b")⟩

/-- The sample is a reference that a program can obtain. -/
theorem obtained_sampleReference : Obtained sampleReference :=
  @Obtained.referenceWithPath (.ofString "a/b") sampleReference rfl

/-- Its path does not start with `.info`. -/
theorem not_infoLine_sampleReference : ¬ InfoLine sampleReference := by
  rintro ⟨rest, -, hrest⟩
  have hfront : sampleReference.path.getFront = some [97] := rfl
  rw [hfront] at hrest
  cases hrest

/-- The path `a/b`. -/
theorem obtained_valid_sampleReference :
    (∀ piece ∈ sampleReference.path.components, isValidKey piece = true) ∧
    ∃ ref', referenceWithPath sampleReference.path.toString = .ok ref' ∧
      ref'.path.isEqual sampleReference.path = true :=
  ⟨(obtained_valid obtained_sampleReference).2.1 "setValue:" rfl not_infoLine_sampleReference,
    (obtained_valid obtained_sampleReference).2.2 not_infoLine_sampleReference⟩

-- the first component of this reference is `.info` and a new line, and a write there is let through
example : ∃ ref, reference.child (.ofString ".info\n") = .ok ref ∧
    writablePath "setValue:" ref.path = .ok () :=
  ⟨⟨.initWith (.ofString ".info\n")⟩, rfl, rfl⟩

end FIRDatabaseReference

/-! ## The references of the app

The view models of the app work with a `Ref`, a list of the strings given to `child`. The strings
have none of the characters that are refused. -/

namespace NSString

/-- Every character has at least one code unit. -/
theorem units_ne_nil (c : Char) : units c ≠ [] := by
  unfold units
  split_ifs <;> simp

/-- The code units below the surrogates stand for themselves. -/
theorem mem_units_iff {c : Char} {u : ℕ} (hu : u < 0xD800) : u ∈ units c ↔ c.toNat = u := by
  unfold units
  split_ifs with h
  · rw [List.mem_singleton, eq_comm]
  · simp only [List.mem_cons, List.not_mem_nil, or_false]
    omega

/-- The code unit of a slash comes from a slash only. -/
theorem slash_mem_units_iff {c : Char} : 47 ∈ units c ↔ c = '/' := by
  rw [mem_units_iff (by decide)]
  exact ⟨fun h => Char.toNat_inj.mp h, fun h => h ▸ rfl⟩

/-- Units without a slash stay at the front of the first piece. -/
theorem splitOn_append_of_not_mem {a b : NSString} (h : 47 ∉ a) :
    (a ++ b).splitOn 47 = (b.splitOn 47).modifyHead (a ++ ·) := by
  induction a with
  | nil =>
    rw [List.nil_append]
    cases b.splitOn 47 <;> rfl
  | cons c a ih =>
    obtain ⟨hc, ha⟩ : 47 ≠ c ∧ 47 ∉ a := by simpa using h
    rw [List.cons_append, List.splitOn_cons_eq_if_modifyHead, if_neg (by simpa using Ne.symm hc),
      ih ha]
    cases b.splitOn 47 <;> rfl

/-- Cutting the code units at slashes is cutting the characters there. -/
theorem splitOn_flatMap_units (cs : List Char) :
    (cs.flatMap units).splitOn 47 = (cs.splitOn '/').map fun cs => cs.flatMap units := by
  induction cs with
  | nil => rfl
  | cons c cs ih =>
    rw [List.flatMap_cons, List.splitOn_cons_eq_if_modifyHead]
    by_cases hc : c = '/'
    · subst hc
      rw [if_pos (by simp), List.map_cons, ← ih]
      exact List.splitOn_append_cons_self [] (cs.flatMap units)
    · rw [if_neg (by simpa using hc), splitOn_append_of_not_mem (mt slash_mem_units_iff.mp hc), ih]
      cases cs.splitOn '/' <;> rfl

/-- Only no characters have no code units. -/
theorem flatMap_units_eq_nil {cs : List Char} : cs.flatMap units = [] ↔ cs = [] := by
  rw [List.flatMap_eq_nil_iff]
  constructor
  · intro h
    cases cs with
    | nil => rfl
    | cons c cs => exact absurd (h c List.mem_cons_self) (units_ne_nil c)
  · rintro rfl c hc
    cases hc

end NSString

/-- A string splits into the components that the app's model of references counts. -/
theorem FPath.newPieces_ofString (s : String) :
    newPieces (.ofString s) = (pathComponents s).map NSString.ofString := by
  have hmap : (NSString.ofString ∘ String.ofList) = fun cs => cs.flatMap NSString.units := by
    funext cs
    rw [Function.comp_apply, NSString.ofString, String.toList_ofList]
  have hfilter : (fun piece : NSString => decide (piece.length > 0)) ∘
      (fun cs : List Char => cs.flatMap NSString.units) = fun cs => !cs.isEmpty := by
    funext cs
    rw [Bool.eq_iff_iff, Function.comp_apply, decide_eq_true_iff, gt_iff_lt, List.length_pos_iff,
      ne_eq, NSString.flatMap_units_eq_nil, Bool.not_eq_true', List.isEmpty_eq_false_iff]
  show ((s.toList.flatMap NSString.units).splitOn 47).filter _ = _
  rw [NSString.splitOn_flatMap_units, List.filter_map, hfilter, pathComponents, List.map_map, hmap]

namespace FIRDatabaseReference

open FValidation

/-- None of the characters that `child` refuses. -/
def Plain (s : String) : Prop := ∀ c ∈ ['[', ']', '.', '#', '$'], c ∉ s.toList

/-- The code units of a plain string are allowed in a path. -/
theorem not_mem_of_plain {s : String} (h : Plain s) :
    ∀ u ∈ NSString.ofString s, u ∉ kInvalidPathCharacters := by
  intro u hu hbad
  obtain ⟨c, hc, hunit⟩ := List.mem_flatMap.mp hu
  have hchars : kInvalidPathCharacters = ['[', ']', '.', '#', '$'].map Char.toNat := by decide
  rw [hchars] at hbad
  obtain ⟨d, hd, rfl⟩ := List.mem_map.mp hbad
  have hlt : ∀ d ∈ ['[', ']', '.', '#', '$'], d.toNat < 0xD800 := by simp
  have hunit' := (NSString.mem_units_iff (hlt d hd)).mp hunit
  have heq : c = d := Char.toNat_inj.mp hunit'
  exact h d hd (heq ▸ hc)

/-- Only the empty string has no code units. -/
theorem ofString_eq_nil {s : String} : NSString.ofString s = [] ↔ s = "" := by
  rw [NSString.ofString, NSString.flatMap_units_eq_nil, String.toList_eq_nil_iff]

/-- At the root and below it the same plain strings are let through. -/
theorem validRootPathString_of_plain {s : String} (h : Plain s) (fn : String) :
    validRootPathString fn (.ofString s) = validPathString fn (.ofString s) := by
  unfold validRootPathString
  rw [if_neg]
  intro hdot
  exact not_mem_of_plain h 46 (hdot.subset (by decide)) (by decide)

/-- A plain string that is not empty passes the check. -/
theorem validPathString_of_plain {s : String} (h : Plain s) (hne : s ≠ "") (fn : String) :
    validPathString fn (.ofString s) = .ok () :=
  validPathString_eq_ok.mpr ((isValidPathString_iff _).mpr
    ⟨mt ofString_eq_nil.mp hne, not_mem_of_plain h⟩)

/-- One reference of the app and what Firebase makes of it. -/
def Agrees (ref : Except NSException FIRDatabaseReference) (r : Except InvalidPath Ref) : Prop :=
  (∃ ref' r', ref = .ok ref' ∧ r = .ok r' ∧
    ref'.path.components = (r'.flatMap pathComponents).map NSString.ofString) ∨
  ∃ e e', ref = .error e ∧ r = .error e' ∧ e.reason = e'.reason

/-- `child` in the app and `child:` in the SDK agree on plain strings. -/
theorem agrees_child {ref : FIRDatabaseReference} {r : Ref}
    (h : ref.path.components = (r.flatMap pathComponents).map NSString.ofString) {s : String}
    (hs : Plain s) : Agrees (ref.child (.ofString s)) (r.child s) := by
  unfold child Ref.child
  rw [validRootPathString_of_plain hs, ite_self]
  split_ifs with hempty
  · subst hempty
    exact .inr ⟨_, _, rfl, rfl, rfl⟩
  · rw [validPathString_of_plain hs hempty]
    refine .inl ⟨_, _, rfl, rfl, ?_⟩
    rw [FPath.components_childFromString, FPath.newPieces_ofString, h, List.flatMap_append,
      List.map_append, List.flatMap_singleton]

/-- The references that the app builds, with `getReference` and one `child` after the other, have
the path that Firebase resolves them to, and Firebase raises an exception exactly if the app's
model of it does, with the same reason. -/
theorem references_agree (path : String) (names : List String) (hpath : path ≠ "")
    (hplain : ∀ s ∈ path :: names, Plain s) :
    Agrees ((referenceWithPath (.ofString path)).bind fun ref =>
        names.foldlM (fun ref name => ref.child (.ofString name)) ref)
      (names.foldlM Ref.child (getReference path)) := by
  obtain ⟨hplain_path, hplain_names⟩ := List.forall_mem_cons.mp hplain
  have hrun : ∀ (ref : FIRDatabaseReference) (r : Ref),
      ref.path.components = (r.flatMap pathComponents).map NSString.ofString →
      Agrees (names.foldlM (fun ref name => ref.child (.ofString name)) ref)
        (names.foldlM Ref.child r) := by
    clear hplain
    induction names with
    | nil => exact fun ref r h => .inl ⟨ref, r, rfl, rfl, h⟩
    | cons name names ih =>
      intro ref r h
      obtain ⟨hname, hnames⟩ := List.forall_mem_cons.mp hplain_names
      rw [List.foldlM_cons, List.foldlM_cons]
      rcases agrees_child h hname with ⟨ref', r', href', hr', h'⟩ | ⟨e, e', he, he', hreason⟩
      · rw [href', hr']
        exact ih hnames ref' r' h'
      · rw [he, he']
        exact .inr ⟨e, e', rfl, rfl, hreason⟩
  rw [referenceWithPath, validRootPathString_of_plain hplain_path,
    validPathString_of_plain hplain_path hpath]
  refine hrun _ _ ?_
  show FPath.newPieces (.ofString path) = _
  rw [FPath.newPieces_ofString, getReference, List.flatMap_singleton]

/-- The reference of the planning of a match, and one with an empty match id. -/
theorem references_agree_planning :
    Agrees ((referenceWithPath (.ofString "Matchs")).bind fun ref =>
        ["m/1", ""].foldlM (fun ref name => ref.child (.ofString name)) ref)
      (["m/1", ""].foldlM Ref.child (getReference "Matchs")) :=
  references_agree "Matchs" ["m/1", ""] (by decide) (by simp [Plain])

end FIRDatabaseReference

end TifaSoccer
