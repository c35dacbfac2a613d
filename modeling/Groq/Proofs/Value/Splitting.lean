/-
  Groq.Proofs.Value.Splitting — a text cut at its separators, and joined again.

  The scan looks for the separator at one place after the other and goes on behind each one it finds, so the pieces of
  a text are those of a cut at the first occurrence, made again in what is behind it (`Pieces`, `splitFrom_pieces`).
  What holds of the pieces follows by induction on the cuts: put together with separators they are the text
  (`Pieces.joined`), none has the separator in it (`Pieces.free`), and there is one more of them than there are occurrences,
  taken from the left without overlaps (`Pieces.leftmost`).
  Proved: all three of `string::split`, and that `array::join` undoes it, for an empty separator too (`join_split`).
-/

import Groq.Proofs.Eval.Limits
import Mathlib.Data.List.Infix
import Mathlib.Data.Nat.Find

namespace Groq

namespace Value

variable {separator cs : List Char}

/-! ## Occurrences -/

/-- The separator stands at this index. -/
def OccursAt (separator cs : List Char) (i : Nat) : Prop := separator <+: cs.drop i

/-- The indices where the separator stands, from `start` on: always the next one that does not overlap the one before. -/
inductive Leftmost (separator cs : List Char) : (start : Nat) → List Nat → Prop
  | none {start : Nat} : (∀ i, start ≤ i → ¬ OccursAt separator cs i) → Leftmost separator cs start []
  | next {start i : Nat} {others : List Nat} : start ≤ i → OccursAt separator cs i →
      (∀ j, start ≤ j → j < i → ¬ OccursAt separator cs j) →
      Leftmost separator cs (i + separator.length) others → Leftmost separator cs start (i :: others)

theorem Leftmost.unique {start : Nat} {places others : List Nat} (h : Leftmost separator cs start places)
    (h' : Leftmost separator cs start others) : places = others := by
  induction h generalizing others with
  | none absent =>
    cases h' with
    | none _ => rfl
    | next from_ here _ _ => exact absurd here (absent _ from_)
  | @next start i places from_ here first _ ih =>
    cases h' with
    | none absent => exact absurd here (absent i from_)
    | @next _ j others from_' here' first' later =>
      have same : i = j := by
        rcases Nat.lt_trichotomy i j with less | same | more
        · exact absurd here (first' i from_ less)
        · exact same
        · exact absurd here' (first j from_' more)
      subst same
      rw [ih later]

theorem occursAt_append (before : List Char) (i : Nat) :
    OccursAt separator (before ++ cs) (before.length + i) ↔ OccursAt separator cs i := by
  unfold OccursAt
  rw [List.drop_length_add_append]

/-- The same text further on. -/
theorem Leftmost.behind {start : Nat} {places : List Nat} (h : Leftmost separator cs start places) (before : List Char) :
    Leftmost separator (before ++ cs) (before.length + start) (places.map (before.length + ·)) := by
  induction h with
  | none absent =>
    refine .none fun i from_ => ?_
    obtain ⟨i, rfl⟩ := Nat.exists_eq_add_of_le (Nat.le_trans (Nat.le_add_right _ _) from_)
    rw [occursAt_append]
    exact absent i (by omega)
  | next from_ here first _ ih =>
    refine .next (Nat.add_le_add_left from_ _) ((occursAt_append before _).mpr here) (fun j le less => ?_) ?_
    · obtain ⟨j, rfl⟩ := Nat.exists_eq_add_of_le (Nat.le_trans (Nat.le_add_right _ _) le)
      rw [occursAt_append]
      exact first j (Nat.le_of_add_le_add_left le) (Nat.lt_of_add_lt_add_left less)
    · rw [Nat.add_assoc]
      exact ih

/-- A part of a text that has the separator in it makes the text have it there. -/
theorem exists_occursAt_append (some : separator ≠ []) {front : List Char} (h : separator <:+: front) (behind : List Char) :
    ∃ i < front.length, OccursAt separator (front ++ behind) i := by
  obtain ⟨before, after, rfl⟩ := h
  have length := List.length_pos_iff.mpr some
  refine ⟨before.length, by simp only [List.length_append]; omega, after ++ behind, ?_⟩
  simp

theorem exists_occursAt_iff : (∃ i, OccursAt separator cs i) ↔ separator <:+: cs := by
  constructor
  · rintro ⟨i, h⟩
    exact h.isInfix.trans (List.drop_suffix i cs).isInfix
  · rintro ⟨before, after, rfl⟩
    exact ⟨before.length, after, by simp⟩

/-! ## Cuts -/

/-- A text without the separator is one piece; any other is cut at the first one. -/
inductive Pieces (separator : List Char) : List Char → List (List Char) → Prop
  | last {cs : List Char} : ¬ separator <:+: cs → Pieces separator cs [cs]
  | cut {front behind : List Char} {pieces : List (List Char)} :
      (∀ i < front.length, ¬ OccursAt separator (front ++ (separator ++ behind)) i) → Pieces separator behind pieces →
      Pieces separator (front ++ (separator ++ behind)) (front :: pieces)

namespace Pieces

variable {pieces : List (List Char)}

theorem ne_nil (h : Pieces separator cs pieces) : pieces ≠ [] := by
  cases h <;> exact List.cons_ne_nil _ _

theorem joined (h : Pieces separator cs pieces) : separator.intercalate pieces = cs := by
  induction h with
  | last _ => exact List.intercalate_singleton
  | cut _ rest ih => rw [List.intercalate_cons_of_ne_nil rest.ne_nil, ih, List.append_assoc]

theorem free (h : Pieces separator cs pieces) (some : separator ≠ []) : ∀ piece ∈ pieces, ¬ separator <:+: piece := by
  induction h with
  | last absent => exact List.forall_mem_singleton.mpr absent
  | cut first _ ih =>
    refine List.forall_mem_cons.mpr ⟨fun inside => ?_, ih⟩
    obtain ⟨i, less, here⟩ := exists_occursAt_append some inside _
    exact first i less here

theorem leftmost (h : Pieces separator cs pieces) :
    ∃ places, Leftmost separator cs 0 places ∧ pieces.length = places.length + 1 := by
  induction h with
  | last absent => exact ⟨[], .none fun i _ here => absent (exists_occursAt_iff.mp ⟨i, here⟩), rfl⟩
  | @cut front behind pieces first _ ih =>
    obtain ⟨places, later, count⟩ := ih
    have here : OccursAt separator (front ++ (separator ++ behind)) front.length :=
      (occursAt_append front 0).mpr (List.prefix_append _ _)
    have beyond := later.behind (front ++ separator)
    rw [List.append_assoc, List.length_append, Nat.add_zero] at beyond
    refine ⟨_, .next (Nat.zero_le _) here (fun j _ less => first j less) beyond, ?_⟩
    rw [List.length_cons, List.length_cons, List.length_map, count]

end Pieces

/-! ## The scan -/

/-- Characters to pass are left out. -/
theorem splitFrom_skip (skip : Nat) (piece cs : List Char) :
    splitFrom separator skip piece cs = splitFrom separator 0 piece (cs.drop skip) := by
  induction skip generalizing cs with
  | zero => rfl
  | succ skip ih =>
    cases cs with
    | nil => rfl
    | cons c rest => exact ih rest

/-- By induction on the text, a character of which goes to the piece. -/
theorem splitFrom_free (absent : ¬ separator <:+: cs) (piece : List Char) :
    splitFrom separator 0 piece cs = [piece.reverse ++ cs] := by
  induction cs generalizing piece with
  | nil => simp [splitFrom]
  | cons c rest ih =>
    have notHere : ¬ separator.isPrefixOf (c :: rest) = true := fun here =>
      absent (List.isPrefixOf_iff_prefix.mp here).isInfix
    have notLater : ¬ separator <:+: rest := fun later => absent (later.trans (List.suffix_cons c rest).isInfix)
    rw [splitFrom, if_neg notHere, ih notLater]
    simp

/-- By induction on what is in front of the first separator. -/
theorem splitFrom_first (some : separator ≠ []) {front behind : List Char}
    (first : ∀ i < front.length, ¬ OccursAt separator (front ++ (separator ++ behind)) i) (piece : List Char) :
    splitFrom separator 0 piece (front ++ (separator ++ behind)) =
      (piece.reverse ++ front) :: splitFrom separator 0 [] behind := by
  induction front generalizing piece with
  | nil =>
    obtain ⟨d, ds, rfl⟩ := List.exists_cons_of_ne_nil some
    have here : (d :: ds).isPrefixOf (d :: (ds ++ behind)) = true :=
      List.isPrefixOf_iff_prefix.mpr (List.prefix_append (d :: ds) behind)
    show splitFrom (d :: ds) 0 piece (d :: (ds ++ behind)) = _
    rw [splitFrom, if_pos here, splitFrom_skip]
    simp
  | cons c front ih =>
    have notHere : ¬ separator.isPrefixOf (c :: (front ++ (separator ++ behind))) = true := fun here =>
      first 0 (Nat.succ_pos _) (List.isPrefixOf_iff_prefix.mp here)
    rw [List.cons_append, splitFrom, if_neg notHere, ih fun i less => first (i + 1) (Nat.succ_lt_succ less)]
    simp

theorem first_occurrence (h : separator <:+: cs) :
    ∃ front behind, cs = front ++ (separator ++ behind) ∧ ∀ i < front.length, ¬ OccursAt separator cs i := by
  classical
  have occurs := exists_occursAt_iff.mpr h
  obtain ⟨behind, here⟩ := Nat.find_spec occurs
  refine ⟨cs.take (Nat.find occurs), behind, ?_, fun i less => Nat.find_min occurs ?_⟩
  · rw [here, List.take_append_drop]
  · exact Nat.lt_of_lt_of_le less (List.length_take_le _ _)

/-- The scan makes the cuts, by induction on the length of the text. -/
theorem splitFrom_pieces (some : separator ≠ []) (cs : List Char) :
    Pieces separator cs (splitFrom separator 0 [] cs) := by
  by_cases h : separator <:+: cs
  · obtain ⟨front, behind, rfl, first⟩ := first_occurrence h
    have shorter : behind.length < (front ++ (separator ++ behind)).length := by
      have length := List.length_pos_iff.mpr some
      simp only [List.length_append]
      omega
    rw [splitFrom_first some first]
    exact .cut first (splitFrom_pieces some behind)
  · rw [splitFrom_free h]
    exact .last h
termination_by cs.length

/-! ## Strings -/

theorem intercalate_nil_eq_flatten (pieces : List (List Char)) : [].intercalate pieces = pieces.flatten := by
  induction pieces with
  | nil => rfl
  | cons piece rest ih =>
    cases rest with
    | nil => simp
    | cons _ _ => rw [List.intercalate_cons_of_ne_nil (List.cons_ne_nil _ _), ih, List.append_nil, ← List.flatten_cons]

theorem intercalate_splitChars (separator cs : List Char) : separator.intercalate (splitChars separator cs) = cs := by
  unfold splitChars
  by_cases none : separator = []
  · rw [if_pos none, none, intercalate_nil_eq_flatten, ← List.flatMap_def]
    simp
  · rw [if_neg none]
    exact (splitFrom_pieces none cs).joined

/-- Strings are all joined. -/
theorem join_strings (pieces : List String) (separator : String) :
    join (array (pieces.map string)) (string separator) = string (separator.intercalate pieces) := by
  have texts : (pieces.map string).mapM plainText? = some pieces := by
    rw [List.mapM_map]
    exact List.mapM_pure.trans (congrArg some (List.map_id pieces))
  simp only [join]
  rw [texts]

end Value

/-! ## Evaluation -/

section Evaluation

variable {limits : Limits} {depth : Nat} {env : Env} {a b : Expr} {v w : Value}
  (foundLeft : evalAt limits depth env a = .ok v) (foundRight : evalAt limits depth env b = .ok w)

include foundLeft foundRight

theorem split_value : evalAt limits (depth + 1) env (.call "string" "split" [a, b]) = .ok (v.split w) :=
  Call.binary_value foundLeft foundRight Value.split

theorem join_value : evalAt limits (depth + 1) env (.call "array" "join" [a, b]) = .ok (v.join w) :=
  Call.binary_value foundLeft foundRight Value.join

end Evaluation

open Value in
/-- A string comes apart into strings, which joined with the separator are the string again. Where the separator is
    not empty none of them has it in it, and there is one more of them than there are occurrences of the separator, each
    the next from the left that does not overlap the one before. -/
theorem join_split (limits : Limits) (depth : Nat) (s : Scope) (text separator : Expr) (t sep : String)
    (foundText : evalAt limits depth (.inScope s) text = .ok (.string t))
    (foundSeparator : evalAt limits depth (.inScope s) separator = .ok (.string sep)) :
    ∃ pieces : List String,
      evalAt limits (depth + 1) (.inScope s) (.call "string" "split" [text, separator]) =
        .ok (.array (pieces.map .string)) ∧
      evalAt limits (depth + 2) (.inScope s)
        (.call "array" "join" [.call "string" "split" [text, separator], separator]) = .ok (.string t) ∧
      (sep ≠ "" →
        (∀ piece ∈ pieces, ¬ sep.toList <:+: piece.toList) ∧
        ∃ places, (∀ others, Leftmost sep.toList t.toList 0 others ↔ others = places) ∧
          pieces.length = places.length + 1) := by
  let pieces := (splitChars sep.toList t.toList).map String.ofList
  have apart : evalAt limits (depth + 1) (.inScope s) (.call "string" "split" [text, separator]) =
      .ok (.array (pieces.map .string)) := by
    rw [split_value foundText foundSeparator, List.map_map]
    rfl
  have joined : sep.intercalate pieces = t := by
    rw [← String.toList_inj, String.toList_intercalate, List.map_map]
    simp [Function.comp_def, intercalate_splitChars]
  refine ⟨pieces, apart, ?_, fun some => ?_⟩
  · rw [join_value apart (evalAt_more (Nat.le_succ depth) foundSeparator), join_strings, joined]
  · have some : sep.toList ≠ [] := by simpa using some
    have cut := splitFrom_pieces some t.toList
    have scan : splitFrom sep.toList 0 [] t.toList = splitChars sep.toList t.toList := (if_neg some).symm
    rw [scan] at cut
    obtain ⟨places, leftmost, count⟩ := cut.leftmost
    refine ⟨?_, places, fun others => ⟨fun h => h.unique leftmost, ?_⟩, ?_⟩
    · intro piece mem
      obtain ⟨cs, inside, rfl⟩ := List.mem_map.mp mem
      rw [String.toList_ofList]
      exact cut.free some cs inside
    · rintro rfl
      exact leftmost
    · rw [List.length_map, count]

/-- The separator overlaps itself: of the places 0, 3 and 4 where it stands, two count. -/
theorem join_split_overlapping :
    evalAt {} 1 (.inScope (.root (.ofDataset [] ⟨0, 0⟩) 0)) (.literal (.string "aabaaa")) = .ok (.string "aabaaa") ∧
      evalAt {} 1 (.inScope (.root (.ofDataset [] ⟨0, 0⟩) 0)) (.literal (.string "aa")) = .ok (.string "aa") ∧
      evalAt {} 2 (.inScope (.root (.ofDataset [] ⟨0, 0⟩) 0))
        (.call "string" "split" [.literal (.string "aabaaa"), .literal (.string "aa")]) =
          .ok (.array [.string "", .string "b", .string "a"]) ∧
      evalAt {} 3 (.inScope (.root (.ofDataset [] ⟨0, 0⟩) 0)) (.call "array" "join"
        [.call "string" "split" [.literal (.string "aabaaa"), .literal (.string "aa")], .literal (.string "aa")]) =
          .ok (.string "aabaaa") ∧
      ∃ places, (∀ others, Value.Leftmost "aa".toList "aabaaa".toList 0 others ↔ others = places) ∧ places.length = 2 := by
  obtain ⟨pieces, apart, joined, counted⟩ := join_split {} 1 (.root (.ofDataset [] ⟨0, 0⟩) 0)
    (.literal (.string "aabaaa")) (.literal (.string "aa")) "aabaaa" "aa" rfl rfl
  obtain ⟨-, places, leftmost, count⟩ := counted (by decide)
  have three : Except.ok (.array [.string "", .string "b", .string "a"]) = (.ok (.array (pieces.map .string)) : Step) :=
    apart
  have length : 3 = (pieces.map Value.string).length :=
    congrArg List.length (Value.array.inj (Except.ok.inj three))
  rw [List.length_map] at length
  exact ⟨rfl, rfl, rfl, joined, places, leftmost, by omega⟩

end Groq
