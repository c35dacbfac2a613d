/-
  Groq.Proofs.Query.Precedence — chains of operands in query text.

  An operand of a chain is a name, a parameter, a literal, a number or a query in brackets, each a
  query of its own. The operands are written with the operators between them, one space on
  either side.
  Proved: a chain parses as precedence climbing builds it, and does not match just where comparisons
  clash (`parse_chain`).
-/

import Groq.Proofs.Query.Chain
import Groq.Proofs.Query.Depth
import Groq.Proofs.Query.Writing
import Mathlib

namespace Groq.Query

theorem surface_of_pipe {constant? : Expr → Option Value} {n : List Char} {e : Expr}
    (h : reading constant? .pipe n = some e) : (surface? n).isSome :=
  surface_of_reading (by decide) (by decide) h

/-! ## Operands -/

/-- What may be an operand of a chain. -/
inductive IsOperand (limits : Limits) : List Char → Prop
  | name {w : List Char} : w ≠ [] → nameAt w = w → isKeyword w = false → IsOperand limits w
  | parameter {w : List Char} : w ≠ [] → nameAt w = w → IsOperand limits ('$' :: w)
  | literal {w : List Char} : literalLength? w = some w.length → IsOperand limits w
  | number {w : List Char} {n : Double.Numeral} : Double.numeral? w = some (n, []) → IsOperand limits w
  | group {q : List Char} {e : Expr} : parse limits (String.ofList q) = .ok e → IsOperand limits ('(' :: q ++ [')'])

/-- The characters that an operator could take in, or that could be a sign. -/
def isOperatorChar (c : Char) : Bool :=
  c = '!' || c = '-' || c = '+' || c = '|' || c = '=' || c = '>' || c = '*'

theorem not_operator_of_isNameChar {c : Char} (h : isNameChar c = true) : isOperatorChar c = false := by
  rcases hc : isOperatorChar c with _ | _
  · rfl
  · simp only [isOperatorChar, Bool.or_eq_true, decide_eq_true_eq] at hc
    rcases hc with (((((rfl | rfl) | rfl) | rfl) | rfl) | rfl) | rfl
    all_goals exact absurd h (by decide)

theorem stands_of_ends {n : List Char} (ends : operandRest? n = some [])
    (first : ∀ c, n.head? = some c → isOperatorChar c = false)
    (last : ∀ c, n.getLast? = some c → isOperatorChar c = false) : Stands n := by
  have other {c d : Char} (hc : isOperatorChar c = false) (hd : isOperatorChar d = true) : c ≠ d := by
    rintro rfl
    exact absurd (hc.symm.trans hd) nofun
  refine ⟨ends, fun c hc => ?_, fun c hc => ?_, fun c hc => ?_⟩
  · exact ⟨other (first c hc) rfl, other (first c hc) rfl, other (first c hc) rfl⟩
  · exact ⟨other (first c hc) rfl, other (first c hc) rfl, other (first c hc) rfl, other (first c hc) rfl⟩
  · exact ⟨other (last c hc) rfl, other (last c hc) rfl, other (last c hc) rfl⟩

theorem last_of_name {c : Char} {w : List Char} (hn : nameAt w = w) (hc : w.getLast? = some c) : isNameChar c = true := by
  have mem := List.mem_of_getLast? hc
  rcases w with _ | ⟨d, w⟩
  · cases hc
  · obtain ⟨hd, hw⟩ := name_chars hn
    rcases List.mem_cons.mp mem with rfl | mem
    · exact isNameChar_of_beginsName hd
    · exact hw c mem

theorem stands_name {w : List Char} (hw : w ≠ []) (hn : nameAt w = w) : Stands w := by
  refine stands_of_ends ?_ (fun c hc => ?_) fun c hc => not_operator_of_isNameChar (last_of_name hn hc)
  · rw [operandRest_of_name (by rwa [hn])]
    simp [namedRest?, hn]
  · rcases w with _ | ⟨d, w⟩
    · cases hc
    · cases hc
      exact not_operator_of_isNameChar (isNameChar_of_beginsName (name_chars hn).1)

theorem stands_parameter {w : List Char} (hw : w ≠ []) (hn : nameAt w = w) : Stands ('$' :: w) := by
  refine stands_of_ends ?_ (fun c hc => ?_) fun c hc => ?_
  · simp [operandRest?, hn, hw, Char.isDigit]
  · cases hc
    rfl
  · obtain ⟨d, w, rfl⟩ := List.exists_cons_of_ne_nil hw
    rw [List.getLast?_cons_cons] at hc
    exact not_operator_of_isNameChar (last_of_name hn hc)

theorem stands_literal {w : List Char} (h : literalLength? w = some w.length) : Stands w := by
  rcases w with _ | ⟨c, cs⟩
  · cases h
  have whole := h
  simp only [literalLength?] at h
  split at h
  · rename_i quote
    obtain ⟨n, hn, hlen⟩ := Option.map_eq_some_iff.mp h
    simp only [List.length_cons, Nat.add_right_cancel_iff] at hlen
    rw [hlen] at hn
    have plain : isOperatorChar c = false := by
      rcases quote with rfl | rfl
      · rfl
      · rfl
    refine stands_of_ends ?_ (fun d hd => ?_) fun d hd => ?_
    · simp [operandRest?, quote, whole]
    · cases hd
      exact plain
    · rw [List.getLast?_cons, literalRest_last hn] at hd
      cases hd
      exact plain
  · cases h

theorem stands_number {w : List Char} {n : Double.Numeral} (h : Double.numeral? w = some (n, [])) : Stands w := by
  obtain ⟨c, v, hv, digit, spelled⟩ := numeral_spelled h
  rw [List.append_nil] at hv
  subst hv
  refine stands_of_ends ?_ (fun d hd => ?_) fun d hd => not_operator_of_isNameChar (spelled.2 d hd)
  · have quote : ¬ (c = '"' ∨ c = '\'') := by
      rintro (rfl | rfl)
      · cases digit
      · cases digit
    simp [operandRest?, quote, digit, h]
  · cases hd
    exact not_operator_of_isNameChar (isNameChar_of_isDigit digit)

theorem stands_group {q : List Char} (h : (surface? q).isSome) : Stands ('(' :: q ++ [')']) := by
  refine stands_of_ends (operandRest_group h) (fun c hc => ?_) fun c hc => ?_
  · cases hc
    rfl
  · rw [List.getLast?_append] at hc
    cases hc
    rfl

/-- An operand is written in its normal form wherever it stands, and stands next to any operator. -/
theorem IsOperand.written {limits : Limits} {w n : List Char} {e : Expr} (h : IsOperand limits w)
    (hn : normalizeChars w = .ok n) (hr : reading (constant? limits) .pipe n = some e) : Writes w n ∧ Stands n := by
  have same (hw : Writes w w) : w = n := Except.ok.inj (hw.normalize.symm.trans hn)
  cases h with
  | name ne name keyword =>
    have written := writes_name ne name keyword
    obtain rfl := same written
    exact ⟨written, stands_name ne name⟩
  | parameter ne name =>
    have written := writes_parameter ne name
    obtain rfl := same written
    exact ⟨written, stands_parameter ne name⟩
  | literal whole =>
    obtain ⟨ls, hl, -⟩ := map_ok hn
    have written := writes_literal whole hl
    obtain rfl := same written
    exact ⟨written, stands_literal whole⟩
  | number whole =>
    have written := writes_number whole
    obtain rfl := same written
    exact ⟨written, stands_number whole⟩
  | @group q _ parses =>
    obtain ⟨nq, hq, read⟩ := parse_ok parses
    obtain ⟨ls, hl, rfl⟩ := map_ok hq
    have inside := surface_of_pipe read
    have written := writes_group (closed_group hl inside hn (surface_of_pipe hr))
    obtain rfl : _ = n := Except.ok.inj (written.normalize.symm.trans hn)
    exact ⟨written, stands_group inside⟩

/-- An operand of a chain, and what it parses to on its own. -/
structure ChainOperand (limits : Limits) where
  text : List Char
  tree : Expr
  kind : IsOperand limits text
  parses : parse limits (String.ofList text) = .ok tree

namespace ChainOperand

variable {limits : Limits} (o : ChainOperand limits)

def normal : List Char := (normalizeChars o.text).toOption.getD []

theorem normal_spec : normalizeChars o.text = .ok o.normal ∧
    reading (constant? limits) .pipe o.normal = some o.tree := by
  obtain ⟨n, hn, hr⟩ := parse_ok o.parses
  have same : o.normal = n := by
    unfold normal
    rw [hn]
    rfl
  rw [same]
  exact ⟨hn, hr⟩

theorem written : Writes o.text o.normal ∧ Stands o.normal :=
  o.kind.written o.normal_spec.1 o.normal_spec.2

/-- In normal form an operand is a piece of a chain. -/
def piece : Piece (constant? limits) where
  text := o.normal
  tree := o.tree
  reads := reading_operand (.operand o.written.2.ends .done) o.written.2.unsigned o.normal_spec.2
  surface := surface_of_pipe o.normal_spec.2
  stands := o.written.2

/-- A name as an operand. -/
def ofName (w : List Char) (nonempty : w ≠ []) (name : nameAt w = w) (plain : isKeyword w = false)
    (bounded : boundedParse {} 256 w = .ok (some (.ownField (String.ofList w)))) : ChainOperand {} where
  text := w
  tree := .ownField (String.ofList w)
  kind := .name nonempty name plain
  parses := parse_of_bounded (writes_name nonempty name plain).normalize bounded

def a : ChainOperand {} := ofName ['a'] (by decide) (by decide) (by decide) rfl

def b : ChainOperand {} := ofName ['b'] (by decide) (by decide) (by decide) rfl

/-- A parameter as one. -/
def c : ChainOperand {} where
  text := ['$', 'c']
  tree := .parameter "c"
  kind := .parameter (List.cons_ne_nil 'c' []) (by decide)
  parses := parse_of_bounded (r := some (.parameter "c"))
    (writes_parameter (List.cons_ne_nil 'c' []) (by decide)).normalize rfl

end ChainOperand

/-! ## Chains -/

section Chains

variable {limits : Limits} (first : ChainOperand limits) (rest : List (Connective × ChainOperand limits))

def chainQuery : List Char := first.text ++ rest.flatMap fun c => ' ' :: c.1.symbol ++ ' ' :: c.2.text

theorem writes_chain : Writes (chainQuery first rest) (chainText ChainOperand.piece first rest) := by
  have alone (o : ChainOperand limits) : Writes o.text o.piece.text := o.written.1
  induction rest generalizing first with
  | nil => simpa [chainQuery, chainText] using alone first
  | cons c rest ih =>
    obtain ⟨c, o⟩ := c
    have joined := (alone first).join c (ih o)
    rw [chainText_cons]
    simpa [chainQuery] using joined

/-- A chain parses as precedence climbing builds it, and does not match just where comparisons clash. -/
theorem parse_chain : parse limits (String.ofList (chainQuery first rest)) = .error (.tooDeep limits.parse) ∨
    (∃ text, parse limits (String.ofList (chainQuery first rest)) =
      match climbChain ChainOperand.tree first rest with
      | some e => .ok e
      | none => .error (.noMatch text)) ∧
    ((∃ text, parse limits (String.ofList (chainQuery first rest)) = .error (.noMatch text)) ↔
      Clash (rest.map (·.1))) := by
  obtain ⟨climbed, clash⟩ := reading_chain ChainOperand.piece first rest
  have trees : (fun o : ChainOperand limits => o.piece.tree) = ChainOperand.tree := rfl
  rw [trees] at climbed clash
  rcases parse_reads limits (writes_chain first rest).normalize with deep | reads
  · exact .inl deep
  · right
    rw [climbed] at reads
    refine ⟨⟨_, reads⟩, ?_⟩
    rw [← clash, reads]
    rcases climbChain ChainOperand.tree first rest with _ | e
    · exact ⟨fun _ => rfl, fun _ => ⟨_, rfl⟩⟩
    · exact ⟨fun ⟨_, h⟩ => absurd h nofun, nofun⟩

/-- The power binds first, to the right of the difference; and comparisons do not associate. -/
theorem parse_chain_difference :
    parse {} "a - b ** $c" =
        .ok (.binary .subtract (.ownField "a") (.binary .power (.ownField "b") (.parameter "c"))) ∧
      ∃ text, parse {} "a < b < $c" = .error (.noMatch text) := by
  constructor
  · have normal : normalizeChars "a - b ** $c".toList = .ok "a-b**$c".toList := by cbv
    have climbed : climbChain ChainOperand.tree ChainOperand.a [(.binary .subtract, .b), (.binary .power, .c)] =
        some (.binary .subtract (.ownField "a") (.binary .power (.ownField "b") (.parameter "c"))) := by
      simp [climbChain, climb, Connective.precedence, Connective.rightMin, Connective.associativity, Connective.apply,
        ChainOperand.a, ChainOperand.b, ChainOperand.c, ChainOperand.ofName]
    rcases parse_chain ChainOperand.a [(.binary .subtract, .b), (.binary .power, .c)] with deep | ⟨⟨_, parses⟩, -⟩
    · exact absurd deep (parse_deep normal (by decide))
    · rw [climbed] at parses
      exact parses
  · have normal : normalizeChars "a < b < $c".toList = .ok "a<b<$c".toList := by cbv
    have clash : Clash [.binary .less, .binary .less] := ⟨[], _, [], _, [], rfl, rfl, rfl, List.forall_mem_nil _⟩
    rcases parse_chain ChainOperand.a [(.binary .less, .b), (.binary .less, .c)] with deep | ⟨-, clashes⟩
    · exact absurd deep (parse_deep normal (by decide))
    · exact clashes.mpr clash

end Chains

end Groq.Query
