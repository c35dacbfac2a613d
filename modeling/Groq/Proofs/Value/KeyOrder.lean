/-
  Groq.Proofs.Value.KeyOrder — what sort keys come before what.

  Values that are not null are ordered by type, and within a type by value (`Less`): `false` before `true`,
  numbers as numbers, strings by their UTF-8 bytes, instants by time. A direction turns this order round, but
  null comes last in both (`KeyLess`), and rows are ordered by the first key in which they differ
  (`RowLess`). The library compares by three-way comparisons and strings by code points.
  Proved: a comparison answers "less" just where the order has it so (`compareRows_eq_lt`), and among rows
  without NaN it is an order with ties (`RowLess.asymm`, `RowLess.between`). Comparing keys is a total preorder but
  for a NaN between two numbers that are out of order (`compareKeys_preorder`, `compareKeys_no_preorder`).
-/

import Groq.Proofs.Double.Order
import Groq.Value.Order
import Mathlib.Data.String.Basic

namespace Groq.Value

/-! ## Text by its bytes -/

def utf8 (s : String) : List UInt8 := s.toUTF8.data.toList

theorem utf8_eq (s : String) : utf8 s = s.toList.flatMap String.utf8EncodeChar := by
  unfold utf8
  conv => lhs; rw [← String.ofList_toList (s := s)]
  rw [String.toUTF8_eq_toByteArray, String.toByteArray_ofList, List.utf8Encode, List.data_toByteArray]

theorem code_lt (c : Char) : c.val.toNat < 1114112 := by
  rcases c.valid with low | ⟨-, high⟩
  · exact Nat.lt_trans low (by decide)
  · exact high

/-- The bytes of a character with a lesser code are less from the first place where they differ, so
    whatever follows them makes no difference. -/
theorem encoded_lt {c d : Char} (h : c < d) (x y : List UInt8) :
    String.utf8EncodeChar c ++ x < String.utf8EncodeChar d ++ y := by
  have less : c.val.toNat < d.val.toNat := h
  have bound := code_lt d
  unfold String.utf8EncodeChar
  dsimp only
  split_ifs
  all_goals
    simp only [List.cons_append, List.cons_lt_cons_iff, UInt8.lt_iff_toNat_lt, ← UInt8.toNat_inj, UInt8.toNat_ofNat']
    simp (disch := omega) only [Nat.mod_eq_of_lt]
    omega

theorem encodeAll_lt {cs ds : List Char} (h : cs < ds) :
    cs.flatMap String.utf8EncodeChar < ds.flatMap String.utf8EncodeChar := by
  induction h with
  | @nil d ds =>
    rw [List.flatMap_cons]
    rcases encoded : String.utf8EncodeChar d with _ | ⟨first, rest⟩
    · exact absurd encoded String.utf8EncodeChar_ne_nil
    · exact List.Lex.nil
  | @cons c cs ds less ih =>
    rw [List.flatMap_cons, List.flatMap_cons]
    exact List.append_left_lt ih
  | @rel c cs d ds less =>
    rw [List.flatMap_cons, List.flatMap_cons]
    exact encoded_lt less _ _

/-- Strings are ordered by their code points as by their bytes. -/
theorem lt_iff_utf8 (s t : String) : s < t ↔ utf8 s < utf8 t := by
  rw [utf8_eq, utf8_eq]
  constructor
  · exact encodeAll_lt
  · intro less
    rcases lt_trichotomy s t with h | rfl | h
    · exact h
    · exact absurd less (List.lt_irrefl _)
    · exact absurd less (List.lt_asymm (encodeAll_lt h))

/-! ## Keys -/

/-- The order of values that are not null. -/
def Less : Value → Value → Prop
  | bool a, bool b => a = false ∧ b = true
  | number a, number b => a < b
  | string a, string b => utf8 a < utf8 b
  | dateTime a, dateTime b => a.seconds < b.seconds ∨ a.seconds = b.seconds ∧ a.nanos < b.nanos
  | a, b => a.rank < b.rank

/-- The order of sort keys. Null comes last in either direction. -/
def KeyLess (direction : Direction) (a b : Value) : Prop :=
  a.isNull = false ∧
    (b.isNull = true ∨
      match direction with
      | .ascending => Less a b
      | .descending => Less b a)

/-- The order of rows of keys, where the first key that is not tied decides. -/
def RowLess : List Direction → List Value → List Value → Prop
  | direction :: rest, a :: as, b :: bs =>
    KeyLess direction a b ∨ (¬ KeyLess direction a b ∧ ¬ KeyLess direction b a) ∧ RowLess rest as bs
  | _, _, _ => False

/-! ## Comparisons answer by the order -/

theorem numberOrder_swap (x y : Float) :
    (orderNumbers? y x).getD .eq = ((orderNumbers? x y).getD .eq).swap := by
  unfold orderNumbers?
  by_cases below : x < y
  · rw [if_neg (Double.lt_asymm below), if_pos below, if_pos below]
    rfl
  · by_cases above : y < x
    · rw [if_pos above, if_neg below, if_pos above]
      rfl
    · rw [if_neg above, if_neg below, if_neg below, if_neg above]
      split_ifs <;> rfl

theorem numberOrder_eq_lt (x y : Float) : (orderNumbers? x y).getD .eq = .lt ↔ x < y := by
  unfold orderNumbers?
  split_ifs <;> simp_all

theorem instantOrder_eq_lt (a b : Instant) :
    compare a b = .lt ↔ a.seconds < b.seconds ∨ a.seconds = b.seconds ∧ a.nanos < b.nanos := by
  show (compare a.seconds b.seconds).then (compare a.nanos b.nanos) = .lt ↔ _
  rw [Double.then_eq_lt]

theorem instantOrder_swap (a b : Instant) : compare b a = (compare a b).swap := by
  show (compare b.seconds a.seconds).then (compare b.nanos a.nanos) =
    ((compare a.seconds b.seconds).then (compare a.nanos b.nanos)).swap
  rw [Ordering.swap_then, ← Std.OrientedOrd.eq_swap, ← Std.OrientedOrd.eq_swap]

theorem sortOrder_swap (a b : Value) : sortOrder b a = (sortOrder a b).swap := by
  cases a with
  | bool x => cases b with
    | bool y => exact Std.OrientedOrd.eq_swap
    | _ => rfl
  | number x => cases b with
    | number y => exact numberOrder_swap x y
    | _ => rfl
  | string x => cases b with
    | string y => exact Std.OrientedOrd.eq_swap
    | _ => rfl
  | dateTime x => cases b with
    | dateTime y => exact instantOrder_swap x y
    | _ => rfl
  | _ => cases b <;> rfl

theorem sortOrder_eq_lt (a b : Value) : sortOrder a b = .lt ↔ Less a b := by
  cases a with
  | bool x => cases b with
    | bool y => exact compare_lt_iff_lt.trans Bool.lt_iff
    | _ => exact compare_lt_iff_lt
  | number x => cases b with
    | number y => exact numberOrder_eq_lt x y
    | _ => exact compare_lt_iff_lt
  | string x => cases b with
    | string y => exact compare_lt_iff_lt.trans (lt_iff_utf8 x y)
    | _ => exact compare_lt_iff_lt
  | dateTime x => cases b with
    | dateTime y => exact instantOrder_eq_lt x y
    | _ => exact compare_lt_iff_lt
  | _ => cases b <;> exact compare_lt_iff_lt

theorem compareKeys_swap (direction : Direction) (a b : Value) :
    compareKeys direction b a = (compareKeys direction a b).swap := by
  unfold compareKeys
  cases a.isNull <;> cases b.isNull
  · cases direction with
    | ascending => exact sortOrder_swap a b
    | descending =>
      dsimp only
      rw [sortOrder_swap a b]
  all_goals rfl

theorem compareKeys_eq_lt (direction : Direction) (a b : Value) :
    compareKeys direction a b = .lt ↔ KeyLess direction a b := by
  unfold compareKeys KeyLess
  cases a.isNull <;> cases b.isNull
  · cases direction with
    | ascending => simp [sortOrder_eq_lt]
    | descending =>
      dsimp only
      rw [← sortOrder_swap a b]
      simp [sortOrder_eq_lt]
  all_goals simp

/-- Keys that tie are those of which neither is before the other. -/
theorem compareKeys_eq_eq (direction : Direction) (a b : Value) :
    compareKeys direction a b = .eq ↔ ¬ KeyLess direction a b ∧ ¬ KeyLess direction b a := by
  rw [← compareKeys_eq_lt, ← compareKeys_eq_lt, compareKeys_swap direction a b]
  cases compareKeys direction a b <;> simp

theorem compareRows_eq_lt (directions : List Direction) (as bs : List Value) :
    compareRows directions as bs = .lt ↔ RowLess directions as bs := by
  induction directions generalizing as bs with
  | nil => simp [compareRows, RowLess]
  | cons direction rest ih =>
    rcases as with _ | ⟨a, as⟩
    · simp [compareRows, RowLess]
    · rcases bs with _ | ⟨b, bs⟩
      · simp [compareRows, RowLess]
      · simp only [compareRows, RowLess]
        rw [Ordering.then_eq_lt, compareKeys_eq_lt, compareKeys_eq_eq, ih]

/-! ## Rows without NaN are ordered, with ties -/

def IsNaN (v : Value) : Prop := ∃ x, v = number x ∧ x.isNaN = true

theorem Less.rank_le {a b : Value} (h : Less a b) : a.rank ≤ b.rank := by
  cases a <;> cases b <;> first | exact Nat.le_refl _ | exact Nat.le_of_lt h

theorem Less.of_rank {a b : Value} (h : a.rank < b.rank) : Less a b := by
  cases a <;> cases b <;> first | exact h | exact absurd h (Nat.lt_irrefl _)

/-- The types of the last rank are all tied. -/
theorem not_less_of_rank {a b : Value} (ha : a.rank = 4) (hb : b.rank = 4) : ¬ Less a b := by
  cases a with
  | null | array | object =>
    intro less
    have later : 4 < b.rank := less
    omega
  | _ => cases ha

/-- Three values of one type, by the order of that type. -/
theorem Less.between_level {a b c : Value} (hb : ¬ IsNaN b) (hab : b.rank = a.rank) (hbc : b.rank = c.rank)
    (h : Less a c) : Less a b ∨ Less b c := by
  cases b with
  | bool y =>
    cases a with
    | bool x => cases c with
      | bool z => cases y with
        | false => exact .inr ⟨rfl, h.2⟩
        | true => exact .inl ⟨h.1, rfl⟩
      | _ => cases hbc
    | _ => cases hab
  | number y =>
    cases a with
    | number x => cases c with
      | number z => exact Double.lt_or_lt (by simpa [IsNaN] using hb) h
      | _ => cases hbc
    | _ => cases hab
  | string y =>
    cases a with
    | string x => cases c with
      | string z =>
        have h : x < z := (lt_iff_utf8 x z).mpr h
        have between : x < y ∨ y < z := (lt_or_ge x y).imp_right fun level => lt_of_le_of_lt level h
        exact between.imp (lt_iff_utf8 x y).mp (lt_iff_utf8 y z).mp
      | _ => cases hbc
    | _ => cases hab
  | dateTime y =>
    cases a with
    | dateTime x => cases c with
      | dateTime z =>
        simp only [Less] at *
        omega
      | _ => cases hbc
    | _ => cases hab
  | null | array _ | object _ => exact absurd h (not_less_of_rank hab.symm hbc.symm)

/-- A value of another type is behind the lesser or before the greater by its type. -/
theorem Less.level {a b c : Value} (h : Less a c) (notBehind : ¬ Less a b) (notBefore : ¬ Less b c) :
    b.rank = a.rank ∧ b.rank = c.rank := by
  have ranks := h.rank_le
  have notBelow : ¬ a.rank < b.rank := fun below => notBehind (.of_rank below)
  have notAbove : ¬ b.rank < c.rank := fun below => notBefore (.of_rank below)
  omega

theorem Less.between {a b c : Value} (hb : ¬ IsNaN b) (h : Less a c) : Less a b ∨ Less b c := by
  by_contra neither
  rw [not_or] at neither
  obtain ⟨level, level'⟩ := h.level neither.1 neither.2
  exact (h.between_level hb level level').elim neither.1 neither.2

theorem KeyLess.between {direction : Direction} {a b c : Value} (hb : ¬ IsNaN b) (h : KeyLess direction a c) :
    KeyLess direction a b ∨ KeyLess direction b c := by
  obtain ⟨some, later⟩ := h
  cases null : b.isNull with
  | true => exact .inl ⟨some, .inl null⟩
  | false =>
    rcases later with last | less
    · exact .inr ⟨null, .inl last⟩
    · cases direction with
      | ascending => exact (less.between hb).imp (fun h => ⟨some, .inr h⟩) fun h => ⟨null, .inr h⟩
      | descending => exact (less.between hb).symm.imp (fun h => ⟨some, .inr h⟩) fun h => ⟨null, .inr h⟩

/-! ## Where comparing keys is no preorder -/

theorem number_of_rank {v : Value} (h : v.rank = 1) : ∃ x, v = number x := by
  cases v with
  | number x => exact ⟨x, rfl⟩
  | _ => cases h

/-- A NaN is tied with every number. -/
theorem not_keyLess_nan {direction : Direction} {b : Value} (nan : IsNaN b) (x : Float) :
    ¬ KeyLess direction (number x) b ∧ ¬ KeyLess direction b (number x) := by
  obtain ⟨y, rfl, nan⟩ := nan
  obtain ⟨notBelow, notAbove⟩ := Double.not_lt_nan (x := x) nan
  cases direction with
  | ascending => exact ⟨fun less => less.2.elim nofun notBelow, fun less => less.2.elim nofun notAbove⟩
  | descending => exact ⟨fun less => less.2.elim nofun notAbove, fun less => less.2.elim nofun notBelow⟩

/-- Only a NaN can be tied with two values one of which is before the other, and both are numbers then. -/
theorem KeyLess.tied_nan {direction : Direction} {a b c : Value} (h : KeyLess direction a c)
    (notBehind : ¬ KeyLess direction a b) (notBefore : ¬ KeyLess direction b c) :
    IsNaN b ∧ (∃ x, a = number x) ∧ ∃ y, c = number y := by
  have nan : IsNaN b := by
    by_contra ordered
    exact (h.between ordered).elim notBehind notBefore
  refine ⟨nan, ?_⟩
  obtain ⟨z, rfl, -⟩ := nan
  obtain ⟨some, null | less⟩ := h
  · exact absurd ⟨rfl, .inl null⟩ notBefore
  · cases direction with
    | ascending =>
      obtain ⟨level, level'⟩ := less.level (fun less => notBehind ⟨some, .inr less⟩) fun less => notBefore ⟨rfl, .inr less⟩
      exact ⟨number_of_rank level.symm, number_of_rank level'.symm⟩
    | descending =>
      obtain ⟨level, level'⟩ := less.level (fun less => notBefore ⟨rfl, .inr less⟩) fun less => notBehind ⟨some, .inr less⟩
      exact ⟨number_of_rank level'.symm, number_of_rank level.symm⟩

theorem compareKeys_eq_gt (direction : Direction) (a b : Value) :
    compareKeys direction a b = .gt ↔ KeyLess direction b a := by
  rw [← compareKeys_eq_lt, compareKeys_swap direction a b]
  cases compareKeys direction a b <;> simp

/-- Comparing two keys the other way round gives the reverse. Of three keys, where the first is not after the second
    nor the second after the third, the first is after the third only if the second is a NaN and the others
    are numbers; and of any two numbers in the wrong order it is, with a NaN between them. -/
theorem compareKeys_preorder (direction : Direction) (a b c : Value) :
    compareKeys direction b a = (compareKeys direction a b).swap ∧
      (compareKeys direction a b ≠ .gt ∧ compareKeys direction b c ≠ .gt ∧ compareKeys direction a c = .gt ↔
        IsNaN b ∧ ∃ x y, a = number x ∧ c = number y ∧ KeyLess direction (number y) (number x)) := by
  refine ⟨compareKeys_swap direction a b, ?_⟩
  rw [ne_eq, ne_eq, compareKeys_eq_gt, compareKeys_eq_gt, compareKeys_eq_gt]
  constructor
  · rintro ⟨notAfter, notAfter', after⟩
    obtain ⟨nan, ⟨y, rfl⟩, x, rfl⟩ := after.tied_nan notAfter' notAfter
    exact ⟨nan, x, y, rfl, rfl, after⟩
  · rintro ⟨nan, x, y, rfl, rfl, after⟩
    exact ⟨(not_keyLess_nan nan x).2, (not_keyLess_nan nan y).1, after⟩

/-- One is not after a NaN, nor a NaN after zero, but one is after zero. -/
theorem compareKeys_no_preorder : ¬ ∀ (direction : Direction) (a b c : Value),
    compareKeys direction a b = (compareKeys direction b a).swap ∧
      (compareKeys direction a b ≠ .gt → compareKeys direction b c ≠ .gt → compareKeys direction a c ≠ .gt) := by
  intro preorder
  have notAfter : compareKeys .ascending (number 1) (number (0 / 0)) ≠ .gt := by decide +kernel
  have notAfter' : compareKeys .ascending (number (0 / 0)) (number 0) ≠ .gt := by decide +kernel
  have after : compareKeys .ascending (number 1) (number 0) = .gt := by decide +kernel
  exact (preorder .ascending (number 1) (number (0 / 0)) (number 0)).2 notAfter notAfter' after

/-! ## Rows -/

theorem compareRows_swap (directions : List Direction) (as bs : List Value) :
    compareRows directions bs as = (compareRows directions as bs).swap := by
  induction directions generalizing as bs with
  | nil => cases as <;> cases bs <;> rfl
  | cons direction rest ih =>
    rcases as with _ | ⟨a, as⟩
    · cases bs <;> rfl
    · rcases bs with _ | ⟨b, bs⟩
      · rfl
      · simp only [compareRows]
        rw [compareKeys_swap direction a b, ih as bs, Ordering.swap_then]

theorem RowLess.asymm {directions : List Direction} {as bs : List Value} (h : RowLess directions as bs) :
    ¬ RowLess directions bs as := by
  rw [← compareRows_eq_lt] at *
  rw [compareRows_swap directions as bs, h]
  decide

/-- By induction along the rows. Where the first keys of the outer rows tie and the one between is tied with
    one of them, it is tied with both. -/
theorem RowLess.between {directions : List Direction} {as bs cs : List Value} (ha : ∀ a ∈ as, ¬ IsNaN a)
    (hb : ∀ b ∈ bs, ¬ IsNaN b) (hc : ∀ c ∈ cs, ¬ IsNaN c) (length : bs.length = directions.length)
    (h : RowLess directions as cs) : RowLess directions as bs ∨ RowLess directions bs cs := by
  induction directions generalizing as bs cs with
  | nil => cases h
  | cons direction rest ih =>
    rcases as with _ | ⟨a, as⟩
    · cases h
    rcases bs with _ | ⟨b, bs⟩
    · cases length
    rcases cs with _ | ⟨c, cs⟩
    · cases h
    simp only [List.forall_mem_cons] at ha hb hc
    rcases h with first | ⟨⟨notLess, notMore⟩, later⟩
    · exact (first.between hb.1).imp .inl .inl
    · by_cases less : KeyLess direction a b
      · exact .inl (.inl less)
      · by_cases less' : KeyLess direction b c
        · exact .inr (.inl less')
        · have more : ¬ KeyLess direction b a := fun back => (back.between hc.1).elim less' notMore
          have more' : ¬ KeyLess direction c b := fun back => (back.between ha.1).elim notMore less
          exact (ih ha.2 hb.2 hc.2 (Nat.succ.inj length) later).imp (fun h => .inr ⟨⟨less, more⟩, h⟩)
            fun h => .inr ⟨⟨less', more'⟩, h⟩

end Groq.Value
