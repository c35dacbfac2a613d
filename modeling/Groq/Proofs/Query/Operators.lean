/-
  Groq.Proofs.Query.Operators — the operators of a text, read from left to right.

  The grammar looks for split points; a reader from the left would go from operand to operator and
  on. `Operators` says what operators such a reader meets, and where: signs stand before an operand,
  traversals behind it, and the longest operator is taken. A text has operators in one way only
  (`Operators.unique`), and putting an operator between two texts joins theirs (`Operators.append`).
-/

import Groq.Proofs.Query.Munch

namespace Groq.Query

/-! ## Operators -/

/-- What joins two operands, or an operand and the target of a pipe. -/
inductive Operator where
  | pipe
  | connective (c : Connective)
  deriving DecidableEq, Repr

def BinaryOp.level : BinaryOp → Level
  | .equal | .notEqual | .less | .lessEqual | .greater | .greaterEqual | .isIn | .matchText => .comparison
  | .add | .subtract => .sum
  | .multiply | .divide | .modulo => .product
  | .power => .power

def Connective.level : Connective → Level
  | or => .or
  | and => .and
  | binary op => BinaryOp.level op

def Operator.level : Operator → Level
  | pipe => .pipe
  | connective c => c.level

/-- The operator at the beginning of a text, and what follows it. -/
def operatorAt? : List Char → Option (Operator × List Char)
  | '|' :: '|' :: rest => some (.connective .or, rest)
  | '|' :: rest => some (.pipe, rest)
  | '&' :: '&' :: rest => some (.connective .and, rest)
  | '=' :: '=' :: rest => some (.connective (.binary .equal), rest)
  | '!' :: '=' :: rest => some (.connective (.binary .notEqual), rest)
  | '<' :: '=' :: rest => some (.connective (.binary .lessEqual), rest)
  | '<' :: rest => some (.connective (.binary .less), rest)
  | '>' :: '=' :: rest => some (.connective (.binary .greaterEqual), rest)
  | '>' :: rest => some (.connective (.binary .greater), rest)
  | ' ' :: 'i' :: 'n' :: ' ' :: rest => some (.connective (.binary .isIn), rest)
  | ' ' :: 'm' :: 'a' :: 't' :: 'c' :: 'h' :: ' ' :: rest => some (.connective (.binary .matchText), rest)
  | '+' :: rest => some (.connective (.binary .add), rest)
  | '-' :: '>' :: _ => none
  | '-' :: rest => some (.connective (.binary .subtract), rest)
  | '*' :: '*' :: rest => some (.connective (.binary .power), rest)
  | '*' :: rest => some (.connective (.binary .multiply), rest)
  | '/' :: rest => some (.connective (.binary .divide), rest)
  | '%' :: rest => some (.connective (.binary .modulo), rest)
  | _ => none

/-- An operator as it is written in normal form. -/
def Operator.text : Operator → List Char
  | pipe => ['|']
  | connective .or => ['|', '|']
  | connective .and => ['&', '&']
  | connective (.binary .equal) => ['=', '=']
  | connective (.binary .notEqual) => ['!', '=']
  | connective (.binary .less) => ['<']
  | connective (.binary .lessEqual) => ['<', '=']
  | connective (.binary .greater) => ['>']
  | connective (.binary .greaterEqual) => ['>', '=']
  | connective (.binary .isIn) => [' ', 'i', 'n', ' ']
  | connective (.binary .matchText) => [' ', 'm', 'a', 't', 'c', 'h', ' ']
  | connective (.binary .add) => ['+']
  | connective (.binary .subtract) => ['-']
  | connective (.binary .multiply) => ['*']
  | connective (.binary .divide) => ['/']
  | connective (.binary .modulo) => ['%']
  | connective (.binary .power) => ['*', '*']

/-- The characters that make something else of an operator when they follow it. -/
def Operator.growsWith? : Operator → Option Char
  | pipe => some '|'
  | connective (.binary .less) => some '='
  | connective (.binary .greater) => some '='
  | connective (.binary .subtract) => some '>'
  | connective (.binary .multiply) => some '*'
  | _ => none

theorem operatorAt_eq_some {cs rest : List Char} {op : Operator} :
    operatorAt? cs = some (op, rest) ↔ cs = op.text ++ rest ∧ ∀ c, op.growsWith? = some c → rest.head? ≠ some c := by
  constructor
  · intro h
    unfold operatorAt? at h
    split at h
    all_goals cases h
    all_goals refine ⟨rfl, ?_⟩
    all_goals intro c hc
    all_goals simp only [Operator.growsWith?, Option.some.injEq, reduceCtorEq] at hc
    all_goals subst hc
    all_goals intro hhead
    all_goals obtain ⟨tail, rfl⟩ := List.head?_eq_some_iff.mp hhead
    all_goals simp_all
  · rintro ⟨rfl, h⟩
    have alone {c : Char} (hc : op.growsWith? = some c) : ∀ tail, rest = c :: tail → False := by
      rintro tail rfl
      exact h c hc rfl
    rcases op with _ | _ | _ | op
    · show operatorAt? ('|' :: rest) = _
      rw [operatorAt?]
      exact alone rfl
    · rfl
    · rfl
    · cases op
      case less =>
        show operatorAt? ('<' :: rest) = _
        rw [operatorAt?]
        exact alone rfl
      case greater =>
        show operatorAt? ('>' :: rest) = _
        rw [operatorAt?]
        exact alone rfl
      case subtract =>
        show operatorAt? ('-' :: rest) = _
        rw [operatorAt?]
        exact alone rfl
      case multiply =>
        show operatorAt? ('*' :: rest) = _
        rw [operatorAt?]
        exact alone rfl
      all_goals rfl

theorem Operator.text_ne_nil (op : Operator) : op.text ≠ [] := by
  rcases op with _ | _ | _ | op
  · exact List.cons_ne_nil _ _
  · exact List.cons_ne_nil _ _
  · exact List.cons_ne_nil _ _
  · cases op <;> exact List.cons_ne_nil _ _

theorem settled_of_operator {cs rest : List Char} {op : Operator} (h : operatorAt? cs = some (op, rest)) :
    Settled cs := by
  obtain ⟨rfl, -⟩ := operatorAt_eq_some.mp h
  rcases op with _ | _ | _ | op
  · exact settled_cons (by decide) (by decide) (by decide) fun h => absurd h (by decide)
  · exact settled_cons (by decide) (by decide) (by decide) fun h => absurd h (by decide)
  · exact settled_cons (by decide) (by decide) (by decide) fun h => absurd h (by decide)
  · cases op
    all_goals exact settled_cons (by decide) (by decide) (by decide) fun h => absurd h (by decide)

theorem traversalRest_of_operator {cs rest : List Char} {op : Operator} (h : operatorAt? cs = some (op, rest)) :
    traversalRest? cs = none := by
  obtain ⟨rfl, alone⟩ := operatorAt_eq_some.mp h
  rcases op with _ | _ | _ | op
  · rfl
  · rfl
  · rfl
  · cases op
    case subtract =>
      show traversalRest? ('-' :: rest) = none
      rw [traversalRest?]
      · intro tail hcs
        cases hcs
      · intro tail hcs
        obtain rfl := (List.cons.inj hcs).2
        exact alone '>' rfl rfl
      · intro tail hcs
        cases hcs
      · intro tail hcs
        cases hcs
    all_goals rfl

/-- Only the character behind an operator decides whether it is a longer one. -/
theorem operatorAt_append {cs rest : List Char} {op : Operator} (h : operatorAt? cs = some (op, rest))
    (hrest : rest ≠ []) (x : List Char) : operatorAt? (cs ++ x) = some (op, rest ++ x) := by
  obtain ⟨rfl, alone⟩ := operatorAt_eq_some.mp h
  refine operatorAt_eq_some.mpr ⟨List.append_assoc _ _ _, fun c hc => ?_⟩
  obtain ⟨d, tail, rfl⟩ := List.exists_cons_of_ne_nil hrest
  exact alone c hc

/-! ## Split points -/

theorem startsWith_iff {p : Place} {text : String} :
    p.startsWith text = true ↔ ∃ tail, p.rest = text.toList ++ tail := by
  unfold Place.startsWith
  rw [List.isPrefixOf_iff_prefix]
  constructor
  · rintro ⟨tail, h⟩
    exact ⟨tail, h.symm⟩
  · rintro ⟨tail, h⟩
    exact ⟨tail, h.symm⟩

theorem head_of_not_startsWith {offset : Nat} {before : Option Char} {c d : Char} {tail : List Char}
    (h : ¬ (⟨offset, before, c :: tail⟩ : Place).startsWith (String.ofList [c, d]) = true) : tail.head? ≠ some d := by
  intro hhead
  obtain ⟨rest, rfl⟩ := List.head?_eq_some_iff.mp hhead
  exact h (startsWith_iff.mpr ⟨rest, by simp⟩)

theorem head_of_not_doubled {offset : Nat} {before : Option Char} {c : Char} {tail : List Char}
    (h : (⟨offset, before, c :: tail⟩ : Place).isDoubled = false) : tail.head? ≠ some c := by
  intro hhead
  simp [Place.isDoubled, hhead] at h

/-- A single character that is an operator where it is not the first of two. -/
theorem operatorAt_single {op : Operator} {c d : Char} {tail : List Char} (text : op.text = [c])
    (grows : op.growsWith? = some d) (alone : tail.head? ≠ some d) : operatorAt? (c :: tail) = some (op, tail) := by
  refine operatorAt_eq_some.mpr ⟨by rw [text]; rfl, fun e he => ?_⟩
  cases grows.symm.trans he
  exact alone

theorem pipe_operator {p : Place} (h : isPipe p = true) : operatorAt? p.rest = some (.pipe, p.rest.drop 1) := by
  obtain ⟨offset, before, rest⟩ := p
  simp only [isPipe, Bool.and_eq_true] at h
  obtain ⟨tail, rfl⟩ := startsWith_iff.mp h.1
  have alone : (⟨offset, before, '|' :: tail⟩ : Place).isDoubled = false := by simpa using h.2
  exact operatorAt_single rfl rfl (head_of_not_doubled alone)

section Finders

variable {p : Place} {f : Found}

theorem orAt_operator (h : orAt? p = some f) :
    operatorAt? p.rest = some (.connective f.connective, p.rest.drop f.length) ∧ f.connective.level = .or := by
  obtain ⟨offset, before, rest⟩ := p
  simp only [orAt?] at h
  split at h
  · obtain ⟨tail, rfl⟩ := startsWith_iff.mp ‹_›
    cases h
    exact ⟨rfl, rfl⟩
  · cases h

theorem andAt_operator (h : andAt? p = some f) :
    operatorAt? p.rest = some (.connective f.connective, p.rest.drop f.length) ∧ f.connective.level = .and := by
  obtain ⟨offset, before, rest⟩ := p
  simp only [andAt?] at h
  split at h
  · obtain ⟨tail, rfl⟩ := startsWith_iff.mp ‹_›
    cases h
    exact ⟨rfl, rfl⟩
  · cases h

theorem comparisonAt_operator (h : comparisonAt? p = some f) :
    operatorAt? p.rest = some (.connective f.connective, p.rest.drop f.length) ∧ f.connective.level = .comparison := by
  obtain ⟨offset, before, rest⟩ := p
  simp only [comparisonAt?] at h
  split at h
  · obtain ⟨tail, rfl⟩ := startsWith_iff.mp ‹_›
    split at h
    · cases h
    · cases h
      exact ⟨rfl, rfl⟩
  split at h
  · obtain ⟨tail, rfl⟩ := startsWith_iff.mp ‹_›
    cases h
    exact ⟨rfl, rfl⟩
  split at h
  · obtain ⟨tail, rfl⟩ := startsWith_iff.mp ‹_›
    cases h
    exact ⟨rfl, rfl⟩
  rename_i less
  split at h
  · obtain ⟨tail, rfl⟩ := startsWith_iff.mp ‹_›
    cases h
    exact ⟨rfl, rfl⟩
  rename_i greater
  split at h
  · obtain ⟨tail, rfl⟩ := startsWith_iff.mp ‹_›
    cases h
    exact ⟨operatorAt_single rfl rfl (head_of_not_startsWith less), rfl⟩
  split at h
  · obtain ⟨tail, rfl⟩ := startsWith_iff.mp ‹_›
    split at h
    · cases h
    · cases h
      exact ⟨operatorAt_single rfl rfl (head_of_not_startsWith greater), rfl⟩
  split at h
  · obtain ⟨tail, rfl⟩ := startsWith_iff.mp ‹_›
    cases h
    exact ⟨rfl, rfl⟩
  split at h
  · obtain ⟨tail, rfl⟩ := startsWith_iff.mp ‹_›
    cases h
    exact ⟨rfl, rfl⟩
  · cases h

theorem sumAt_operator (h : sumAt? p = some f) :
    operatorAt? p.rest = some (.connective f.connective, p.rest.drop f.length) ∧ f.connective.level = .sum := by
  obtain ⟨offset, before, rest⟩ := p
  simp only [sumAt?] at h
  split at h
  · obtain ⟨tail, rfl⟩ := startsWith_iff.mp ‹_›
    cases h
    exact ⟨rfl, rfl⟩
  split at h
  · rename_i minus
    obtain ⟨tail, rfl⟩ := startsWith_iff.mp minus.1
    have alone : ¬ (⟨offset, before, '-' :: tail⟩ : Place).startsWith "->" = true := by simpa using minus.2
    cases h
    exact ⟨operatorAt_single rfl rfl (head_of_not_startsWith alone), rfl⟩
  · cases h

theorem productAt_operator (h : productAt? p = some f) :
    operatorAt? p.rest = some (.connective f.connective, p.rest.drop f.length) ∧ f.connective.level = .product := by
  obtain ⟨offset, before, rest⟩ := p
  simp only [productAt?] at h
  split at h
  · rename_i times
    obtain ⟨tail, rfl⟩ := startsWith_iff.mp times.1
    have alone : (⟨offset, before, '*' :: tail⟩ : Place).isDoubled = false := by simpa using times.2
    cases h
    exact ⟨operatorAt_single rfl rfl (head_of_not_doubled alone), rfl⟩
  split at h
  · obtain ⟨tail, rfl⟩ := startsWith_iff.mp ‹_›
    cases h
    exact ⟨rfl, rfl⟩
  split at h
  · obtain ⟨tail, rfl⟩ := startsWith_iff.mp ‹_›
    cases h
    exact ⟨rfl, rfl⟩
  · cases h

theorem powerAt_operator (h : powerAt? p = some f) :
    operatorAt? p.rest = some (.connective f.connective, p.rest.drop f.length) ∧ f.connective.level = .power := by
  obtain ⟨offset, before, rest⟩ := p
  simp only [powerAt?] at h
  split at h
  · obtain ⟨tail, rfl⟩ := startsWith_iff.mp ‹_›
    cases h
    exact ⟨rfl, rfl⟩
  · cases h

/-- What a level finds at a place is the operator there, and one of the level. -/
theorem find_operator {l : Level} {r : InfixRule} (hr : l.infix? = some r) (h : r.find? p = some f) :
    operatorAt? p.rest = some (.connective f.connective, p.rest.drop f.length) ∧ f.connective.level = l := by
  cases l <;> cases hr
  · exact orAt_operator h
  · exact andAt_operator h
  · exact comparisonAt_operator h
  · exact sumAt_operator h
  · exact productAt_operator h
  · exact powerAt_operator h

end Finders

/-! ## What is left over is an end -/

theorem bracketRest_suffix {cs rest : List Char} (h : bracketRest? cs = some rest) : rest <:+ cs := by
  obtain ⟨close, -, rfl⟩ := Option.map_eq_some_iff.mp h
  exact List.drop_suffix _ _

theorem namedRest_suffix {cs rest : List Char} (h : namedRest? cs = some rest) : rest <:+ cs := by
  have after := List.drop_suffix (nameAt cs).length cs
  unfold namedRest? at h
  dsimp only at h
  split at h
  · rename_i tail hcs
    split at h
    · cases h
    · have inner : tail <:+ cs.drop (nameAt cs).length := by
        rw [hcs]
        exact (List.suffix_cons _ _).trans (List.suffix_cons _ _)
      exact ((bracketRest_suffix h).trans (List.drop_suffix _ _)).trans (inner.trans after)
  · exact (bracketRest_suffix h).trans after
  · cases h
    exact after

theorem operandRest_suffix {cs rest : List Char} (h : operandRest? cs = some rest) : rest <:+ cs := by
  rcases cs with _ | ⟨c, cs⟩
  · cases h
  have tail := List.suffix_cons c cs
  simp only [operandRest?] at h
  split at h
  · obtain ⟨length, -, rfl⟩ := Option.map_eq_some_iff.mp h
    exact List.drop_suffix _ _
  split at h
  · obtain ⟨⟨n, after⟩, hn, rfl⟩ := Option.map_eq_some_iff.mp h
    exact (numeral_suffix hn).1
  split at h
  · split at h
    · cases h
    · cases h
      exact (List.drop_suffix _ _).trans tail
  split at h
  · cases h
    exact tail
  split at h
  · cases h
    exact (List.drop_suffix _ _).trans tail
  split at h
  · cases h
    exact tail
  split at h
  · exact bracketRest_suffix h
  split at h
  · exact namedRest_suffix h
  · cases h

theorem traversalRest_suffix {cs rest : List Char} (h : traversalRest? cs = some rest) : rest <:+ cs := by
  unfold traversalRest? at h
  split at h
  · split at h
    · cases h
    · cases h
      exact (List.drop_suffix _ _).trans (List.suffix_cons _ _)
  · cases h
    exact (List.drop_suffix _ _).trans ((List.suffix_cons _ _).trans (List.suffix_cons _ _))
  · exact bracketRest_suffix h
  · exact bracketRest_suffix h
  · cases h

/-! ## Reading from the left -/

/-- What a reader from the left looks for: an operand, with its signs, or what may follow one. -/
inductive Expects where
  | operand
  | operator
  deriving DecidableEq, Repr

/-- A text and the operators in it, each with its offset; the text begins at the given one. -/
inductive Operators : Expects → Nat → List Char → List (Nat × Operator) → Prop
  | done {offset : Nat} : Operators .operator offset [] []
  | sign {offset : Nat} {c : Char} {cs : List Char} {ops : List (Nat × Operator)} :
      c = '!' ∨ c = '-' ∨ c = '+' → Operators .operand (offset + 1) cs ops → Operators .operand offset (c :: cs) ops
  | operand {offset : Nat} {cs rest : List Char} {ops : List (Nat × Operator)} :
      operandRest? cs = some rest → Operators .operator (offset + (cs.length - rest.length)) rest ops →
      Operators .operand offset cs ops
  | traversal {offset : Nat} {cs rest : List Char} {ops : List (Nat × Operator)} :
      traversalRest? cs = some rest → Operators .operator (offset + (cs.length - rest.length)) rest ops →
      Operators .operator offset cs ops
  | operator {offset : Nat} {cs rest : List Char} {op : Operator} {ops : List (Nat × Operator)} :
      operatorAt? cs = some (op, rest) → Operators .operand (offset + op.text.length) rest ops →
      Operators .operator offset cs ((offset, op) :: ops)

namespace Operators

variable {expects : Expects} {offset : Nat} {cs x : List Char} {ops ops' : List (Nat × Operator)}

theorem ne_nil (h : Operators .operand offset cs ops) : cs ≠ [] := by
  rintro rfl
  cases h with
  | operand h _ => cases h

theorem settled (h : Operators .operator offset cs ops) : Settled cs := by
  cases h with
  | done => exact settled_nil
  | traversal h _ => exact settled_of_traversal h
  | operator h _ => exact settled_of_operator h

/-- A text has operators in one way only. -/
theorem unique (h : Operators expects offset cs ops) (h' : Operators expects offset cs ops') : ops = ops' := by
  induction h generalizing ops' with
  | done =>
    cases h' with
    | done => rfl
    | traversal h _ => cases h
    | operator h _ => cases h
  | sign hc _ ih =>
    cases h' with
    | sign _ h => exact ih h
    | operand h _ => rcases hc with rfl | rfl | rfl <;> cases h
  | operand hr _ ih =>
    cases h' with
    | sign hc _ => rcases hc with rfl | rfl | rfl <;> cases hr
    | operand hr' h =>
      cases hr.symm.trans hr'
      exact ih h
  | traversal hr _ ih =>
    cases h' with
    | done => cases hr
    | traversal hr' h =>
      cases hr.symm.trans hr'
      exact ih h
    | operator ho _ => exact absurd (hr.symm.trans (traversalRest_of_operator ho)) nofun
  | operator ho _ ih =>
    cases h' with
    | done => cases ho
    | traversal hr _ => exact absurd (hr.symm.trans (traversalRest_of_operator ho)) nofun
    | operator ho' h =>
      cases ho.symm.trans ho'
      rw [ih h]

/-- Text that follows an operand joins its operators to those of the operand. -/
theorem append (h : Operators expects offset cs ops) (h' : Operators .operator (offset + cs.length) x ops') :
    Operators expects offset (cs ++ x) (ops ++ ops') := by
  have hx := h'.settled
  induction h with
  | done => exact h'
  | sign hc _ ih =>
    refine .sign hc (ih ?_)
    rw [List.length_cons] at h'
    rwa [Nat.add_assoc, Nat.add_comm 1]
  | @operand offset cs rest ops hr h ih =>
    have hle := (operandRest_suffix hr).length_le
    have length : (cs ++ x).length - (rest ++ x).length = cs.length - rest.length := by
      simp only [List.length_append]
      omega
    refine .operand (operandRest_append hr h.settled hx) ?_
    rw [length]
    refine ih ?_
    rwa [Nat.add_assoc, Nat.sub_add_cancel hle]
  | @traversal offset cs rest ops hr h ih =>
    have hle := (traversalRest_suffix hr).length_le
    have length : (cs ++ x).length - (rest ++ x).length = cs.length - rest.length := by
      simp only [List.length_append]
      omega
    refine .traversal (traversalRest_append hr hx) ?_
    rw [length]
    refine ih ?_
    rwa [Nat.add_assoc, Nat.sub_add_cancel hle]
  | @operator offset cs rest op ops ho h ih =>
    refine .operator (operatorAt_append ho h.ne_nil x) (ih ?_)
    have e := (operatorAt_eq_some.mp ho).1
    rw [e, List.length_append] at h'
    rwa [Nat.add_assoc]

end Operators

end Groq.Query
