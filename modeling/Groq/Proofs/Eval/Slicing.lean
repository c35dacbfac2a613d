/-
  Groq.Proofs.Eval.Slicing — which items a slice takes.

  The bounds of a slice stand for indices, a negative bound for one counted from the end (`boundIndex`). The
  slice clamps the indices to the array and cuts there; what it takes are the items at the indices that lie
  between them (`slice_eq`). So two slices that meet at any bound make up the array (`slice_append_slice`),
  and the slice that begins and ends at the same index from the end holds the one item there, or none where
  the array is shorter (`element_slice`).
  Indices have 64 bits. `checkedSlice?` is a slice whose sums fail where they overflow and whose cut fails where
  it is out of order or out of range; with bounds up to 2^53 it never fails (`checkedSlice_eq`), and the
  parser makes no others (`smallBounds_of_parse`).
  Proved: all of this of slices as they are evaluated (`evalAt_slice`).
-/

import Groq.Proofs.Query.WellFormed
import Mathlib.Algebra.Order.Ring.Int

namespace Groq

open Value

namespace Value

/-! ## Items by index -/

/-- The items at the indices that pass a test, in order. -/
def itemsAt (test : Nat → Bool) (items : List Value) : List Value :=
  (items.zipIdx.filter fun entry => test entry.2).map Prod.fst

/-- Does an index lie between the first and the last? -/
def between (inclusive : Bool) (first last : Int) (index : Nat) : Bool :=
  first ≤ index && if inclusive then index ≤ last else index < last

theorem itemsAt_congr {items : List Value} {test test' : Nat → Bool}
    (same : ∀ index < items.length, test index = test' index) : itemsAt test items = itemsAt test' items := by
  unfold itemsAt
  refine congrArg (List.map Prod.fst) (List.filter_congr fun entry mem => ?_)
  obtain ⟨-, index, -⟩ := List.mem_zipIdx mem
  exact same entry.2 (by omega)

theorem itemsAt_cons (test : Nat → Bool) (item : Value) (rest : List Value) :
    itemsAt test (item :: rest) =
      if test 0 then item :: itemsAt (fun index => test (index + 1)) rest
      else itemsAt (fun index => test (index + 1)) rest := by
  have behind : ((rest.zipIdx 1).filter fun entry => test entry.2).map Prod.fst =
      itemsAt (fun index => test (index + 1)) rest := by
    rw [List.zipIdx_succ, List.filter_map, List.map_map]
    rfl
  unfold itemsAt
  rw [List.zipIdx_cons, List.filter_cons]
  by_cases h : test 0 = true
  · rw [if_pos h, if_pos h, List.map_cons, behind]
    rfl
  · rw [if_neg h, if_neg h, behind]
    rfl

/-- A cut takes the items from one index up to another. -/
theorem drop_take_eq (items : List Value) (first past : Nat) :
    (items.take past).drop first = itemsAt (fun index => first ≤ index && index < past) items := by
  induction items generalizing first past with
  | nil => simp [itemsAt]
  | cons item rest ih =>
    rw [itemsAt_cons]
    rcases past with _ | past
    · simpa using ih 0 0
    rcases first with _ | first
    · simpa using ih 0 past
    · simpa using ih first past

/-! ## Indices of 64 bits -/

/-- A sum of two words of 64 bits with a sign, none where it overflows. -/
def sumOfWords? (a b : Int) : Option Int :=
  if -2 ^ 63 ≤ a + b ∧ a + b < 2 ^ 63 then some (a + b) else none

/-- The index that a bound stands for. -/
def checkedIndex? (length : Nat) (bound : Int) : Option Int :=
  if bound < 0 then sumOfWords? bound length else some bound

/-- The index behind the last one taken. -/
def pastIndex (inclusive : Bool) (last : Int) : Int := if inclusive then last + 1 else last

def checkedPast? (inclusive : Bool) (last : Int) : Option Int := if inclusive then sumOfWords? last 1 else some last

/-- The items from one index up to another, none where these are out of order or out of range. -/
def cut? (items : List Value) (first past : Nat) : Option (List Value) :=
  if first ≤ past ∧ past ≤ items.length then some ((items.take past).drop first) else none

/-- What is taken between two indices, clamped to the array. -/
def clampedCut? (items : List Value) (first past : Int) : Option (List Value) :=
  if clamp items.length past ≤ clamp items.length first then some []
  else cut? items (clamp items.length first) (clamp items.length past)

/-- A slice that fails where a sum overflows or the cut is not within the array. -/
def checkedSlice? (inclusive : Bool) (left right : Int) (items : List Value) : Option (List Value) := do
  let first ← checkedIndex? items.length left
  let last ← checkedIndex? items.length right
  let past ← checkedPast? inclusive last
  clampedCut? items first past

section Bounds

variable {length : Nat} {bound index : Int}

theorem boundIndex_fits (small : bound.natAbs ≤ 2 ^ 53) (fits : length < 2 ^ 63) :
    -2 ^ 53 ≤ boundIndex length bound ∧ boundIndex length bound < 2 ^ 63 - 1 := by
  unfold boundIndex
  split <;> omega

theorem checkedIndex_eq (small : bound.natAbs ≤ 2 ^ 53) (fits : length < 2 ^ 63) :
    checkedIndex? length bound = some (boundIndex length bound) := by
  unfold checkedIndex? boundIndex
  split
  · exact if_pos (by omega)
  · rfl

theorem checkedPast_eq (inclusive : Bool) (least : -2 ^ 53 ≤ index) (greatest : index < 2 ^ 63 - 1) :
    checkedPast? inclusive index = some (pastIndex inclusive index) := by
  unfold checkedPast? pastIndex
  split
  · exact if_pos (by omega)
  · rfl

theorem indexBehind_eq (least : -2 ^ 53 ≤ index) (greatest : index < 2 ^ 63 - 1) : indexBehind index = index + 1 := by
  have words : Nat.pow 2 64 = 18446744073709551616 := rfl
  unfold indexBehind
  rw [words]
  exact Int.bmod_eq_of_le (by omega) (by omega)

end Bounds

/-- A clamped cut is never out of order or out of range. -/
theorem clampedCut_eq (items : List Value) (first past : Int) :
    clampedCut? items first past = some ((items.take (clamp items.length past)).drop (clamp items.length first)) := by
  unfold clampedCut?
  split
  · rename_i empty
    rw [List.drop_eq_nil_of_le]
    exact Nat.le_trans (List.length_take_le _ _) empty
  · rename_i nonempty
    exact if_pos ⟨Nat.le_of_not_le nonempty, Nat.min_le_right _ _⟩

/-! ## Slices -/

section Slices

variable {items : List Value} {left right : Int} (fits : items.length < 2 ^ 63)

include fits

/-- The index behind the last one does not wrap around. -/
theorem slice_cut (inclusive : Bool) (left : Int) (hr : right.natAbs ≤ 2 ^ 53) :
    slice inclusive left right (.array items) =
      .array ((items.take (clamp items.length (pastIndex inclusive (boundIndex items.length right)))).drop
        (clamp items.length (boundIndex items.length left))) := by
  obtain ⟨least, greatest⟩ := boundIndex_fits hr fits
  have behind := indexBehind_eq least greatest
  cases inclusive with
  | false => rfl
  | true =>
    show array (List.drop _ (List.take (clamp items.length (indexBehind (boundIndex items.length right))) items)) = _
    rw [behind]
    rfl

/-- A slice takes the items at the indices between its bounds. -/
theorem slice_eq (inclusive : Bool) (left : Int) (hr : right.natAbs ≤ 2 ^ 53) :
    slice inclusive left right (.array items) =
      .array (itemsAt (between inclusive (boundIndex items.length left) (boundIndex items.length right)) items) := by
  rw [slice_cut fits inclusive left hr, drop_take_eq]
  refine congrArg array (itemsAt_congr fun index inside => ?_)
  unfold clamp between pastIndex
  cases inclusive
  all_goals
    rw [Bool.eq_iff_iff]
    simp
    omega

/-- With small bounds no sum overflows, and the cut is within the array. -/
theorem checkedSlice_eq (inclusive : Bool) (hl : left.natAbs ≤ 2 ^ 53) (hr : right.natAbs ≤ 2 ^ 53) :
    (checkedSlice? inclusive left right items).map array = some (slice inclusive left right (.array items)) := by
  obtain ⟨least, greatest⟩ := boundIndex_fits hr fits
  unfold checkedSlice?
  rw [checkedIndex_eq hl fits, checkedIndex_eq hr fits]
  simp only [Option.bind_eq_bind, Option.bind_some]
  rw [checkedPast_eq inclusive least greatest, Option.bind_some, clampedCut_eq, slice_cut fits inclusive left hr]
  rfl

/-- Two slices that meet, the first of them exclusive there, make up the array. -/
theorem slice_append_slice {k : Int} (hk : k.natAbs ≤ 2 ^ 53) :
    (slice false 0 k (.array items)).add (slice true k (-1) (.array items)) = .array items := by
  rw [slice_cut fits false 0 hk, slice_cut fits true k (by decide)]
  unfold add
  refine congrArg array ?_
  have front : clamp items.length (boundIndex items.length 0) = 0 := by
    unfold clamp boundIndex
    simp
  have behind : items.length ≤ clamp items.length (pastIndex true (boundIndex items.length (-1))) := by
    unfold clamp pastIndex boundIndex
    simp
    
  rw [front, List.drop_zero, List.take_of_length_le behind]
  exact List.take_append_drop _ items

/-- The slice that begins and ends at an index from the end holds the item there, if there is one. -/
theorem element_slice {n : Nat} (pos : 1 ≤ n) (small : n ≤ 2 ^ 53) :
    (slice true (-n) (-n) (.array items)).element 0 = (items.reverse[n - 1]?).getD .null := by
  rw [slice_cut fits true (-n) (by omega)]
  show (((items.take _).drop _)[0]?).getD null = _
  have index : boundIndex items.length (-n) = items.length - n := by
    unfold boundIndex
    omega
  rw [index, List.getElem?_drop, List.getElem?_take, Nat.add_zero]
  by_cases inside : n ≤ items.length
  · have first : clamp items.length (items.length - n) = items.length - 1 - (n - 1) := by
      unfold clamp
      omega
    have past : clamp items.length (pastIndex true (items.length - n)) = items.length - 1 - (n - 1) + 1 := by
      unfold clamp pastIndex
      simp
      omega
    rw [first, past, if_pos (Nat.lt_succ_self _), List.getElem?_reverse (by omega)]
  · have past : clamp items.length (pastIndex true (items.length - n)) = 0 := by
      unfold clamp pastIndex
      simp
      omega
    have beyond : items.reverse[n - 1]? = none := by
      rw [List.getElem?_eq_none_iff, List.length_reverse]
      omega
    rw [past, if_neg (Nat.not_lt_zero _), beyond]

end Slices

end Value

/-! ## Bounds that are parsed -/

namespace Expr

/-- The bounds of a slice are whole numbers up to 2^53 in magnitude. -/
def SmallBounds : Expr → Prop
  | slice _ left right _ => left.natAbs ≤ 2 ^ 53 ∧ right.natAbs ≤ 2 ^ 53
  | _ => True

theorem Node.smallBounds {constant? : Expr → Option Value} {e : Expr} (h : e.Node constant?) : e.SmallBounds := by
  cases e with
  | slice base left right inclusive =>
    obtain ⟨-, ⟨leastLeft, greatestLeft⟩, leastRight, greatestRight⟩ := h
    exact ⟨by omega, by omega⟩
  | _ => trivial

theorem Everywhere.mono {p q : Expr → Prop} {e : Expr} (h : e.Everywhere p) (weaker : ∀ e, p e → q e) :
    e.Everywhere q := by
  induction h with
  | node here _ ih => exact .node (weaker _ here) ih

theorem smallBounds_of_parse {limits : Limits} {query : String} {e : Expr} (h : Query.parse limits query = .ok e) :
    e.Everywhere SmallBounds := by
  rw [← String.ofList_toList (s := query)] at h
  obtain ⟨n, -, read⟩ := Query.parse_ok h
  have formed := (Query.readSpan_formed (Groq.constant? limits)).1 .pipe ⟨0, n⟩ e read
  exact formed.nodes.mono fun _ node => Node.smallBounds node.1

end Expr

/-! ## Evaluation -/

section Evaluation

variable {limits : Limits} {depth : Nat} {env : Env} {base : Expr} {v : Value}
  (found : evalAt limits depth env base = .ok v)

include found

theorem slice_value (inclusive : Bool) (left right : Int) :
    evalAt limits (depth + 1) env (.slice base left right inclusive) = .ok (v.slice inclusive left right) := by
  show (evalAt limits depth env base >>= fun v => pure (v.slice inclusive left right)) = _
  rw [found]
  rfl

theorem element_value (index : Int) : evalAt limits (depth + 1) env (.element base index) = .ok (v.element index) := by
  show (evalAt limits depth env base >>= fun v => pure (v.element index)) = _
  rw [found]
  rfl

end Evaluation

/-- Slices of an array, with small bounds, as all are that the parser makes: no sum overflows, the cut is within the
    array, and the items at the indices between the bounds are taken, in order. Two slices that meet make up
    the array. An index from the end leads to the item there, or to null where the array is shorter. -/
theorem evalAt_slice (limits : Limits) (depth : Nat) (env : Env) (base : Expr) (items : List Value)
    (found : evalAt limits depth env base = .ok (.array items)) (fits : items.length < 2 ^ 63) :
    (∀ query e, Query.parse limits query = .ok e → e.Everywhere Expr.SmallBounds) ∧
    (∀ (left right : Int) (inclusive : Bool), left.natAbs ≤ 2 ^ 53 → right.natAbs ≤ 2 ^ 53 →
      checkedSlice? inclusive left right items =
        some (itemsAt (between inclusive (boundIndex items.length left) (boundIndex items.length right)) items) ∧
      evalAt limits (depth + 1) env (.slice base left right inclusive) = .ok (.array
        (itemsAt (between inclusive (boundIndex items.length left) (boundIndex items.length right)) items))) ∧
    (∀ k : Int, k.natAbs ≤ 2 ^ 53 → evalAt limits (depth + 2) env
      (.binary .add (.slice base 0 k false) (.slice base k (-1) true)) = .ok (.array items)) ∧
    ∀ n : Nat, 1 ≤ n → n ≤ 2 ^ 53 →
      Query.elementAt base (-n) = .element (.slice base (-n) (-n) true) 0 ∧
      evalAt limits (depth + 2) env (Query.elementAt base (-n)) = .ok ((items.reverse[n - 1]?).getD .null) := by
  refine ⟨fun query e parsed => Expr.smallBounds_of_parse parsed, ?between, ?meet, ?fromEnd⟩
  case between =>
    intro left right inclusive hl hr
    have sliced := slice_eq fits inclusive left hr
    have checked := checkedSlice_eq fits inclusive hl hr
    rw [sliced] at checked
    obtain ⟨taken, some, same⟩ := Option.map_eq_some_iff.mp checked
    cases same
    exact ⟨some, (slice_value found inclusive left right).trans (congrArg Except.ok sliced)⟩
  case meet =>
    intro k hk
    have whole := evalAt_binary (slice_value found false 0 k) (slice_value found true k (-1)) .add
    exact whole.trans (congrArg Except.ok (slice_append_slice fits hk))
  case fromEnd =>
    intro n pos small
    have sugar : Query.elementAt base (-n) = .element (.slice base (-n) (-n) true) 0 := if_neg (by omega)
    rw [sugar]
    refine ⟨rfl, ?_⟩
    have one := element_value (slice_value found true (-n) (-n)) 0
    exact one.trans (congrArg Except.ok (element_slice fits pos small))

/-- An array of three items. -/
def Expr.three : Expr := .literal (.array [.null, .bool true, .bool false])

/-- The slice from the second last on holds two of three items, slices may meet at an index before the first
    item, and there is no fourth item from the end. -/
theorem evalAt_slice_three :
    evalAt {} 1 .constant .three = .ok (.array [.null, .bool true, .bool false]) ∧
      [Value.null, .bool true, .bool false].length < 2 ^ 63 ∧
      checkedSlice? true (-2) (-1) [.null, .bool true, .bool false] = some [.bool true, .bool false] ∧
      evalAt {} 2 .constant (.slice .three (-2) (-1) true) = .ok (.array [.bool true, .bool false]) ∧
      evalAt {} 3 .constant (.binary .add (.slice .three 0 (-5) false) (.slice .three (-5) (-1) true)) =
        .ok (.array [.null, .bool true, .bool false]) ∧
      evalAt {} 3 .constant (Query.elementAt .three (-4)) = .ok .null := by
  have found : evalAt {} 1 .constant .three = .ok (.array [.null, .bool true, .bool false]) := rfl
  have fits : [Value.null, .bool true, .bool false].length < 2 ^ 63 := by decide
  obtain ⟨-, between, meet, fromEnd⟩ := evalAt_slice {} 1 .constant .three _ found fits
  obtain ⟨checked, sliced⟩ := between (-2) (-1) true (by decide) (by decide)
  exact ⟨found, fits, checked, sliced, meet (-5) (by decide), (fromEnd 4 (by decide) (by decide)).2⟩

end Groq
