import Mathlib

/-!
# The order of the keys

`FUtilities.compareKey` puts the keys that read as 32-bit integers first, by value and then by
length, and the other keys after them, literally. That is the order of a `rank`, so it is total;
but two keys may have the same rank: `-0` reads as `0`, so it compares as equal to `00`. On the
keys that do not read as a negative zero the order is linear, and a sorted dictionary can use it.
-/

namespace TifaSoccer

/-- An `NSString`: its UTF-16 code units. -/
abbrev NSString := List ℕ

namespace FUtilities

/-- The loop of `tryParseStringToInt`. -/
def parseDigits : NSString → ℕ → Option ℕ
  | [], value => some value
  | c :: str, value => if c < 48 ∨ 57 < c then none else parseDigits str (value * 10 + (c - 48))

def tryParseStringToInt (str : NSString) : Option ℤ :=
  if 11 < str.length ∨ str.length = 0 then none
  else
    -- a minus sign
    let negative := decide (str.head? = some 45)
    if negative = true ∧ str.length = 1 then none
    else
      (parseDigits (if negative then str.tail else str) 0).bind fun value =>
        let value : ℤ := if negative then -value else value
        if value < -2147483648 ∨ 2147483647 < value then none else some value

/-- A key as `compareKey` sees it: `minName` and `maxName` are two objects of their own, and a key
is told from them by its address, whatever its text. -/
inductive Name where
  | minName
  | maxName
  | key (text : NSString)
deriving DecidableEq

/-- The text of a name: `[MIN_NAME]` and `[MAX_NAME]` for the two special ones. -/
def Name.text : Name → NSString
  | .minName => [91, 77, 73, 78, 95, 78, 65, 77, 69, 93]
  | .maxName => [91, 77, 65, 88, 95, 78, 65, 77, 69, 93]
  | .key text => text

/-- The last branch of `compareKey`: the texts of two keys. -/
def compareText (a b : NSString) : Ordering :=
  match tryParseStringToInt a, tryParseStringToInt b with
  | some aAsInt, some bAsInt =>
    if aAsInt > bAsInt then .gt
    else if aAsInt < bAsInt then .lt
    else if a.length > b.length then .gt
    else if a.length < b.length then .lt
    else .eq
  | some _, none => .lt
  | none, some _ => .gt
  | none, none => compareOfLessAndEq a b

def compareKey (a b : Name) : Ordering :=
  if a = b then .eq
  else if a = .minName ∨ b = .maxName then .lt
  else if b = .minName ∨ a = .maxName then .gt
  else compareText a.text b.text

/-! ## The rank of a key -/

/-- What `compareKey` looks at in a text. -/
def textRank (a : NSString) : (ℤ ×ₗ ℕ) ⊕ₗ NSString :=
  match tryParseStringToInt a with
  | some aAsInt => toLex (.inl (toLex (aAsInt, a.length)))
  | none => toLex (.inr a)

/-- Texts that are integers are ranked by number and length. -/
theorem textRank_of_some {a : NSString} {x : ℤ} (h : tryParseStringToInt a = some x) :
    textRank a = toLex (.inl (toLex (x, a.length))) := by
  rw [textRank, h]

/-- All other texts are ranked by themselves. -/
theorem textRank_of_none {a : NSString} (h : tryParseStringToInt a = none) :
    textRank a = toLex (.inr a) := by
  rw [textRank, h]

/-- The two special names are below and above every key. -/
def rank : Name → WithBot (WithTop ((ℤ ×ₗ ℕ) ⊕ₗ NSString))
  | .minName => ⊥
  | .maxName => ((⊤ : WithTop ((ℤ ×ₗ ℕ) ⊕ₗ NSString)) : WithBot (WithTop ((ℤ ×ₗ ℕ) ⊕ₗ NSString)))
  | .key text => ((textRank text : WithTop ((ℤ ×ₗ ℕ) ⊕ₗ NSString)) :
      WithBot (WithTop ((ℤ ×ₗ ℕ) ⊕ₗ NSString)))

/-- Two keys are ranked by their texts. -/
theorem compare_rank_key (a b : NSString) :
    compare (rank (.key a)) (rank (.key b)) = compare (textRank a) (textRank b) := by
  rcases lt_trichotomy (textRank a) (textRank b) with h | h | h
  · rw [compare_lt_iff_lt.mpr h, compare_lt_iff_lt]
    exact WithBot.coe_lt_coe.mpr (WithTop.coe_lt_coe.mpr h)
  · rw [compare_eq_iff_eq.mpr h, compare_eq_iff_eq, rank, rank, h]
  · rw [compare_gt_iff_gt.mpr h, compare_gt_iff_gt]
    exact WithBot.coe_lt_coe.mpr (WithTop.coe_lt_coe.mpr h)

/-- The comparison of two texts is that of their ranks. -/
theorem compareText_eq {a b : NSString} (hab : a ≠ b) :
    compareText a b = compare (textRank a) (textRank b) := by
  unfold compareText
  cases ha : tryParseStringToInt a with
  | none =>
    cases hb : tryParseStringToInt b with
    | none =>
      rw [textRank_of_none ha, textRank_of_none hb]
      rcases lt_or_gt_of_ne hab with hlt | hgt
      · rw [compare_lt_iff_lt.mpr (Sum.Lex.inr_lt_inr_iff.mpr hlt)]
        exact if_pos hlt
      · rw [compare_gt_iff_gt.mpr (Sum.Lex.inr_lt_inr_iff.mpr hgt)]
        exact (if_neg hgt.asymm).trans (if_neg hab)
    | some y =>
      rw [textRank_of_none ha, textRank_of_some hb,
        compare_gt_iff_gt.mpr (Sum.Lex.inl_lt_inr (toLex (y, b.length)) a)]
  | some x =>
    cases hb : tryParseStringToInt b with
    | none =>
      rw [textRank_of_some ha, textRank_of_none hb,
        compare_lt_iff_lt.mpr (Sum.Lex.inl_lt_inr (toLex (x, a.length)) b)]
    | some y =>
      rw [textRank_of_some ha, textRank_of_some hb]
      simp only
      rcases lt_trichotomy x y with hxy | rfl | hxy
      · rw [if_neg hxy.not_gt, if_pos hxy, eq_comm, compare_lt_iff_lt]
        exact Sum.Lex.inl_lt_inl_iff.mpr (Prod.Lex.toLex_lt_toLex.mpr (.inl hxy))
      · rw [if_neg (lt_irrefl x), if_neg (lt_irrefl x)]
        rcases lt_trichotomy a.length b.length with hlen | hlen | hlen
        · rw [if_neg hlen.not_gt, if_pos hlen, eq_comm, compare_lt_iff_lt]
          exact Sum.Lex.inl_lt_inl_iff.mpr (Prod.Lex.toLex_lt_toLex.mpr (.inr ⟨rfl, hlen⟩))
        · rw [if_neg hlen.not_gt, if_neg hlen.not_lt, hlen, compare_eq_iff_eq.mpr rfl]
        · rw [if_pos hlen, eq_comm, compare_gt_iff_gt]
          exact Sum.Lex.inl_lt_inl_iff.mpr (Prod.Lex.toLex_lt_toLex.mpr (.inr ⟨rfl, hlen⟩))
      · rw [if_pos hxy, eq_comm, compare_gt_iff_gt]
        exact Sum.Lex.inl_lt_inl_iff.mpr (Prod.Lex.toLex_lt_toLex.mpr (.inl hxy))

/-- The minimal name has the lowest rank. -/
theorem rank_minName_lt {b : Name} (h : b ≠ .minName) : rank .minName < rank b := by
  cases b with
  | minName => exact absurd rfl h
  | maxName => exact WithBot.bot_lt_coe _
  | key text => exact WithBot.bot_lt_coe _

/-- The maximal name has the highest rank. -/
theorem rank_lt_maxName {a : Name} (h : a ≠ .maxName) : rank a < rank .maxName := by
  cases a with
  | minName => exact WithBot.bot_lt_coe _
  | maxName => exact absurd rfl h
  | key text => exact WithBot.coe_lt_coe.mpr (WithTop.coe_lt_top _)

/-- The comparison of the source is that of the ranks. -/
theorem compareKey_eq (a b : Name) : compareKey a b = compare (rank a) (rank b) := by
  rcases eq_or_ne a b with rfl | hab
  · rw [compareKey, if_pos rfl, compare_eq_iff_eq.mpr rfl]
  · by_cases hlt : a = .minName ∨ b = .maxName
    · rw [compareKey, if_neg hab, if_pos hlt, eq_comm, compare_lt_iff_lt]
      rcases hlt with rfl | rfl
      · exact rank_minName_lt hab.symm
      · exact rank_lt_maxName hab
    · by_cases hgt : b = .minName ∨ a = .maxName
      · rw [compareKey, if_neg hab, if_neg hlt, if_pos hgt, eq_comm, compare_gt_iff_gt]
        rcases hgt with rfl | rfl
        · exact rank_minName_lt hab
        · exact rank_lt_maxName hab.symm
      · cases a with
        | minName => exact absurd (.inl rfl) hlt
        | maxName => exact absurd (.inr rfl) hgt
        | key a =>
          cases b with
          | minName => exact absurd (.inl rfl) hgt
          | maxName => exact absurd (.inr rfl) hlt
          | key b =>
            rw [compareKey, if_neg hab, if_neg hlt, if_neg hgt, Name.text, Name.text,
              compareText_eq (by simpa using hab), compare_rank_key]

/-! ## Keys of the same rank -/

/-- Texts of one length that are the same number are the same. -/
theorem parseDigits_injective {str str' : NSString} {v v' n : ℕ}
    (hlen : str.length = str'.length) (h : parseDigits str v = some n)
    (h' : parseDigits str' v' = some n) : v = v' ∧ str = str' := by
  induction str generalizing str' v v' with
  | nil =>
    obtain rfl := List.length_eq_zero_iff.mp hlen.symm
    simp only [parseDigits, Option.some.injEq] at h h'
    exact ⟨h.trans h'.symm, rfl⟩
  | cons c str ih =>
    cases str' with
    | nil => simp at hlen
    | cons c' str' =>
      rw [parseDigits] at h h'
      split_ifs at h h' with hc hc'
      obtain ⟨hv, rfl⟩ := ih (by simpa using hlen) h h'
      obtain rfl : c = c' := by omega
      exact ⟨by omega, rfl⟩

/-- Only zeros are read as zero. -/
theorem parseDigits_eq_zero {str : NSString} {v : ℕ} (h : parseDigits str v = some 0) :
    v = 0 ∧ str = List.replicate str.length 48 := by
  induction str generalizing v with
  | nil => simpa [parseDigits] using h
  | cons c str ih =>
    rw [parseDigits] at h
    split_ifs at h with hc
    obtain ⟨hv, hstr⟩ := ih h
    obtain rfl : c = 48 := by omega
    refine ⟨by omega, ?_⟩
    rw [List.length_cons, List.replicate_succ, ← hstr]

/-- The keys that read as integers: digits, or digits after a minus sign. -/
theorem tryParseStringToInt_cases {a : NSString} {x : ℤ} (h : tryParseStringToInt a = some x) :
    (∃ n, parseDigits a 0 = some n ∧ x = n) ∨
      ∃ str n, a = 45 :: str ∧ parseDigits str 0 = some n ∧ x = -n ∧ 1 ≤ str.length := by
  unfold tryParseStringToInt at h
  have h₁ : ¬ (11 < a.length ∨ a.length = 0) := by
    intro hlen
    rw [if_pos hlen] at h
    simp at h
  rw [if_neg h₁] at h
  by_cases hneg : a.head? = some 45
  · obtain ⟨str, rfl⟩ := List.head?_eq_some_iff.mp hneg
    simp only [List.head?_cons, decide_true, true_and, if_true, List.tail_cons] at h
    split_ifs at h with h₂
    obtain ⟨n, hn, h⟩ := Option.bind_eq_some_iff.mp h
    split_ifs at h with h₃
    refine .inr ⟨str, n, rfl, hn, (Option.some.inj h).symm, ?_⟩
    rw [List.length_cons] at h₂
    omega
  · simp only [hneg, decide_false, Bool.false_eq_true, false_and, if_false] at h
    obtain ⟨n, hn, h⟩ := Option.bind_eq_some_iff.mp h
    split_ifs at h with h₃
    exact .inl ⟨n, hn, (Option.some.inj h).symm⟩

/-- The key `-0…0`, with `n` zeros. -/
def minusZero (n : ℕ) : NSString := 45 :: List.replicate n 48

/-- The key `0…0`, of the same length. -/
def plainZero (n : ℕ) : NSString := List.replicate (n + 1) 48

/-- An integer has at most eleven characters. -/
theorem length_le_of_tryParseStringToInt {a : NSString} {x : ℤ}
    (h : tryParseStringToInt a = some x) : a.length ≤ 11 := by
  unfold tryParseStringToInt at h
  split_ifs at h with h₁
  omega

/-- Any number of zeros is read as zero. -/
theorem parseDigits_replicate (n : ℕ) : parseDigits (List.replicate n 48) 0 = some 0 := by
  induction n with
  | zero => rfl
  | succ n ih => simpa [List.replicate_succ, parseDigits] using ih

/-- Zeros after a minus sign are an integer. -/
theorem tryParseStringToInt_minusZero {n : ℕ} (h₁ : 1 ≤ n) (h₂ : n ≤ 10) :
    tryParseStringToInt (minusZero n) = some 0 := by
  have hlen : (minusZero n).length = n + 1 := by simp [minusZero]
  unfold tryParseStringToInt
  rw [hlen, if_neg (by omega)]
  simp only [minusZero, List.head?_cons, decide_true, List.tail_cons, if_true,
    parseDigits_replicate]
  rw [if_neg (by omega)]
  rfl

/-- Zeros alone are an integer too. -/
theorem tryParseStringToInt_plainZero {n : ℕ} (h : n ≤ 10) :
    tryParseStringToInt (plainZero n) = some 0 := by
  have hlen : (plainZero n).length = n + 1 := by simp [plainZero]
  unfold tryParseStringToInt
  rw [hlen, if_neg (by omega)]
  simp only [plainZero, List.replicate_succ, List.head?_cons, Option.some.injEq,
    Nat.reduceEqDiff, decide_false, Bool.false_eq_true, false_and, if_false]
  rw [← List.replicate_succ, parseDigits_replicate]
  rfl

/-- Two texts have the same rank exactly if they are equal or the two spellings of a zero of the
same length, with and without a minus sign. -/
theorem textRank_eq_iff {a b : NSString} :
    textRank a = textRank b ↔ a = b ∨ ∃ n, 1 ≤ n ∧ n ≤ 10 ∧
      (a = minusZero n ∧ b = plainZero n ∨ a = plainZero n ∧ b = minusZero n) := by
  constructor
  · intro h
    cases ha : tryParseStringToInt a with
    | none =>
      cases hb : tryParseStringToInt b with
      | none =>
        rw [textRank_of_none ha, textRank_of_none hb] at h
        exact .inl (Sum.inr.inj (toLex.injective h))
      | some y =>
        rw [textRank_of_none ha, textRank_of_some hb] at h
        exact absurd (toLex.injective h) (by simp)
    | some x =>
      cases hb : tryParseStringToInt b with
      | none =>
        rw [textRank_of_some ha, textRank_of_none hb] at h
        exact absurd (toLex.injective h) (by simp)
      | some y =>
        rw [textRank_of_some ha, textRank_of_some hb] at h
        have hpair := toLex.injective (Sum.inl.inj (toLex.injective h))
        obtain ⟨hxy, hlen⟩ := Prod.mk.inj hpair
        subst hxy
        have hle := length_le_of_tryParseStringToInt ha
        rcases tryParseStringToInt_cases ha with ⟨n, hn, hx⟩ | ⟨str, n, rfl, hn, hx, hpos⟩
        · rcases tryParseStringToInt_cases hb with ⟨m, hm, hy⟩ | ⟨str, m, rfl, hm, hy, hpos⟩
          · obtain rfl : n = m := by omega
            exact .inl (parseDigits_injective hlen hn hm).2
          · -- only zero is both a number and the negative of one
            obtain rfl : n = 0 := by omega
            obtain rfl : m = 0 := by omega
            obtain ⟨-, hstr⟩ := parseDigits_eq_zero hm
            obtain ⟨-, hastr⟩ := parseDigits_eq_zero hn
            rw [List.length_cons] at hlen
            refine .inr ⟨str.length, hpos, by omega, .inr ⟨?_, ?_⟩⟩
            · rw [plainZero, ← hlen]
              exact hastr
            · rw [minusZero, ← hstr]
        · rcases tryParseStringToInt_cases hb with ⟨m, hm, hy⟩ | ⟨str', m, rfl, hm, hy, hpos'⟩
          · obtain rfl : n = 0 := by omega
            obtain rfl : m = 0 := by omega
            obtain ⟨-, hstr⟩ := parseDigits_eq_zero hn
            obtain ⟨-, hbstr⟩ := parseDigits_eq_zero hm
            rw [List.length_cons] at hlen hle
            refine .inr ⟨str.length, hpos, by omega, .inl ⟨?_, ?_⟩⟩
            · rw [minusZero, ← hstr]
            · rw [plainZero, hlen]
              exact hbstr
          · obtain rfl : n = m := by omega
            have hlen' : str.length = str'.length := by simpa using hlen
            obtain ⟨-, rfl⟩ := parseDigits_injective hlen' hn hm
            exact .inl rfl
  · rintro (rfl | ⟨n, h₁, h₂, ⟨rfl, rfl⟩ | ⟨rfl, rfl⟩⟩)
    · rfl
    · rw [textRank_of_some (tryParseStringToInt_minusZero h₁ h₂),
        textRank_of_some (tryParseStringToInt_plainZero h₂)]
      simp [minusZero, plainZero]
    · rw [textRank_of_some (tryParseStringToInt_minusZero h₁ h₂),
        textRank_of_some (tryParseStringToInt_plainZero h₂)]
      simp [minusZero, plainZero]

/-- Two names have one rank only if they are the two spellings of zero. -/
theorem rank_eq_iff {a b : Name} :
    rank a = rank b ↔ a = b ∨ ∃ n, 1 ≤ n ∧ n ≤ 10 ∧
      (a = .key (minusZero n) ∧ b = .key (plainZero n) ∨
        a = .key (plainZero n) ∧ b = .key (minusZero n)) := by
  constructor
  · intro h
    rcases eq_or_ne a b with rfl | hab
    · exact .inl rfl
    · cases a with
      | minName => exact absurd h (rank_minName_lt hab.symm).ne
      | maxName => exact absurd h (rank_lt_maxName hab.symm).ne'
      | key a =>
        cases b with
        | minName => exact absurd h (rank_minName_lt hab).ne'
        | maxName => exact absurd h (rank_lt_maxName hab).ne
        | key b =>
          have htext : textRank a = textRank b := WithTop.coe_injective (WithBot.coe_injective h)
          rcases textRank_eq_iff.mp htext with rfl | ⟨n, h₁, h₂, hn⟩
          · exact .inl rfl
          · refine .inr ⟨n, h₁, h₂, ?_⟩
            rcases hn with ⟨rfl, rfl⟩ | ⟨rfl, rfl⟩
            · exact .inl ⟨rfl, rfl⟩
            · exact .inr ⟨rfl, rfl⟩
  · have hzero {n : ℕ} (h₁ : 1 ≤ n) (h₂ : n ≤ 10) :
        rank (.key (minusZero n)) = rank (.key (plainZero n)) := by
      rw [rank, rank, textRank_eq_iff.mpr (.inr ⟨n, h₁, h₂, .inl ⟨rfl, rfl⟩⟩)]
    rintro (rfl | ⟨n, h₁, h₂, ⟨rfl, rfl⟩ | ⟨rfl, rfl⟩⟩)
    · rfl
    · exact hzero h₁ h₂
    · exact (hzero h₁ h₂).symm

/-- `compareKey` is a total preorder of the names with `minName` first and `maxName` last, and it
takes two different keys for the same exactly if they spell a zero of the same length, one of them
with a minus sign. -/
theorem compareKey_total_preorder :
    (∀ a b, compareKey b a = (compareKey a b).swap) ∧
    (∀ a b c, compareKey a b ≠ .gt → compareKey b c ≠ .gt → compareKey a c ≠ .gt) ∧
    (∀ a b c, compareKey a b = .lt → compareKey b c = .lt → compareKey a c = .lt) ∧
    (∀ a, compareKey .minName a ≠ .gt ∧ compareKey a .maxName ≠ .gt) ∧
    ∀ a b, compareKey a b = .eq ↔ a = b ∨ ∃ n, 1 ≤ n ∧ n ≤ 10 ∧
      (a = .key (minusZero n) ∧ b = .key (plainZero n) ∨
        a = .key (plainZero n) ∧ b = .key (minusZero n)) := by
  refine ⟨?_, ?_, ?_, ?_, ?_⟩
  · intro a b
    rw [compareKey_eq, compareKey_eq]
    exact Std.OrientedCmp.eq_swap
  · intro a b c
    simp only [compareKey_eq, ne_eq, compare_gt_iff_gt, not_lt]
    exact le_trans
  · intro a b c
    simp only [compareKey_eq, compare_lt_iff_lt]
    exact lt_trans
  · intro a
    simp only [compareKey_eq, ne_eq, compare_gt_iff_gt, not_lt]
    constructor
    · rcases eq_or_ne a .minName with rfl | ha
      · exact le_rfl
      · exact (rank_minName_lt ha).le
    · rcases eq_or_ne a .maxName with rfl | ha
      · exact le_rfl
      · exact (rank_lt_maxName ha).le
  · intro a b
    rw [compareKey_eq, compare_eq_iff_eq, rank_eq_iff]

end FUtilities

/-! ## Keys in a linear order -/

/-- A key of a dictionary: any text but a negative zero, which the order cannot tell from a zero
without the sign. -/
structure FKey where
  text : NSString
  notMinusZero : ∀ n, 1 ≤ n → n ≤ 10 → text ≠ FUtilities.minusZero n

namespace FKey

open FUtilities

/-- A key is determined by its text. -/
theorem text_injective : Function.Injective text := by
  rintro ⟨a, ha⟩ ⟨b, hb⟩ h
  simpa using h

/-- Different keys have different ranks. -/
theorem rank_injective : Function.Injective fun a : FKey => rank (.key a.text) := by
  rintro ⟨a, ha⟩ ⟨b, hb⟩ h
  rcases rank_eq_iff.mp h with hab | ⟨n, h₁, h₂, ⟨hn, -⟩ | ⟨-, hn⟩⟩
  · simpa using hab
  · exact absurd (by simpa using hn) (ha n h₁ h₂)
  · exact absurd (by simpa using hn) (hb n h₁ h₂)

instance : LinearOrder FKey :=
  LinearOrder.lift' (fun a : FKey => rank (.key a.text)) rank_injective

/-- The order of the keys is the order of `keyComparator`. -/
theorem compare_eq (a b : FKey) : compare a b = compareKey (.key a.text) (.key b.text) := by
  rw [compareKey_eq]
  rcases lt_trichotomy a b with h | rfl | h
  · rw [compare_lt_iff_lt.mpr h]
    exact (compare_lt_iff_lt.mpr h).symm
  · rw [compare_eq_iff_eq.mpr rfl, compare_eq_iff_eq.mpr rfl]
  · rw [compare_gt_iff_gt.mpr h]
    exact (compare_gt_iff_gt.mpr h).symm

end FKey

end TifaSoccer
