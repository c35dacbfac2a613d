/-
  Groq.Proofs.Query.Composition — texts put together from texts that parse.

  A text with no operators is the same at every level down to the operand (`reading_operand`), and
  what any text is at a level it is at the next weaker one (`reading_of_tighter`). Two texts with an
  operator between them make its node, if each is something at the level of its side
  (`reading_join`): the operator is a split point that succeeds, so by unambiguity it is the one
  that is taken.
-/

import Groq.Proofs.Query.Unambiguous

namespace Groq.Query

/-! ## Surfaces -/

/-- Is a surface found? It does not depend on where the text begins and what stands before it. -/
theorem surfaceFrom_isSome {s : Scan} {offset offset' : Nat} {before before' : Option Char} {cs : List Char}
    (h : (surfaceFrom s offset before cs).isSome) : (surfaceFrom s offset' before' cs).isSome := by
  induction cs generalizing s offset offset' before before' with
  | nil => exact h
  | cons c rest ih =>
    obtain ⟨places, h⟩ := Option.isSome_iff_exists.mp h
    simp only [surfaceFrom, Option.bind_eq_bind, Option.bind_eq_some_iff] at h
    obtain ⟨next, hn, others, ho, -⟩ := h
    obtain ⟨others', ho'⟩ := Option.isSome_iff_exists.mp (ih (Option.isSome_iff_exists.mpr ⟨others, ho⟩))
    simp only [surfaceFrom, hn, Option.bind_eq_bind, Option.bind_some]
    rw [ho']
    rfl

/-- The last character of a text, or the one before it if there is none. -/
theorem getLast_cons_or (c : Char) (rest : List Char) (before : Option Char) :
    (c :: rest).getLast?.or before = rest.getLast?.or (some c) := by
  rcases rest with _ | ⟨d, rest⟩
  · rfl
  · rw [List.getLast?_cons_cons, List.getLast?_eq_some_getLast (List.cons_ne_nil d rest)]
    rfl

/-- The surface of a text that goes on behind one that has a surface. -/
theorem surfaceFrom_append {s : Scan} {offset : Nat} {before : Option Char} {cs x : List Char}
    (h : (surfaceFrom s offset before cs).isSome) {places : List Place}
    (hx : surfaceFrom Scan.start (offset + cs.length) (cs.getLast?.or before) x = some places) :
    ∃ first, surfaceFrom s offset before (cs ++ x) = some (first ++ places) := by
  induction cs generalizing s offset before with
  | nil =>
    by_cases hs : s = Scan.start
    · subst hs
      exact ⟨[], hx⟩
    · simp [surfaceFrom, hs] at h
  | cons c rest ih =>
    obtain ⟨all, h⟩ := Option.isSome_iff_exists.mp h
    simp only [surfaceFrom, Option.bind_eq_bind, Option.bind_eq_some_iff] at h
    obtain ⟨next, hn, others, ho, -⟩ := h
    rw [getLast_cons_or, List.length_cons, ← Nat.add_assoc, Nat.add_right_comm] at hx
    obtain ⟨first, hf⟩ := ih (Option.isSome_iff_exists.mpr ⟨others, ho⟩) hx
    simp only [List.cons_append, surfaceFrom, hn, Option.bind_eq_bind, Option.bind_some, hf]
    split
    · exact ⟨_ :: first, rfl⟩
    · exact ⟨first, rfl⟩

/-- A character that opens and closes nothing. -/
def isPlain (c : Char) : Bool :=
  c != '"' && c != '\'' && (closerOf? c).isNone && !isCloser c && c.toNat < 128

theorem surfaceFrom_plain {offset : Nat} {before : Option Char} {c : Char} {rest : List Char} (hc : isPlain c = true) :
    surfaceFrom Scan.start offset before (c :: rest) =
      (surfaceFrom Scan.start (offset + 1) (some c) rest).map (⟨offset, before, c :: rest⟩ :: ·) := by
  simp only [isPlain, Bool.and_eq_true, bne_iff_ne, ne_eq, Option.isNone_iff_eq_none, Bool.not_eq_true',
    decide_eq_true_eq] at hc
  obtain ⟨⟨⟨⟨double, single⟩, opener⟩, closer⟩, ascii⟩ := hc
  have step : Scan.start.step? c = some Scan.start := by
    simp [Scan.step?, Scan.start, double, single, opener, closer]
  have visible : onSurface Scan.start Scan.start c = true := by
    simp [onSurface, Scan.start, double, single, ascii]
  simp only [surfaceFrom, step, Option.bind_eq_bind, Option.bind_some, visible, if_true]
  rcases surfaceFrom Scan.start (offset + 1) (some c) rest with _ | places
  · rfl
  · rfl

/-- The first character of a plain text is a place, whatever balanced text follows. -/
theorem surfaceFrom_operator (offset : Nat) (before : Option Char) {c : Char} {text cs : List Char}
    (plain : ∀ d ∈ c :: text, isPlain d = true) (h : (surface? cs).isSome) :
    ∃ places, surfaceFrom Scan.start offset before (c :: text ++ cs) =
      some (⟨offset, before, c :: text ++ cs⟩ :: places) := by
  have balanced : ∀ (text : List Char) (offset : Nat) (before : Option Char), (∀ d ∈ text, isPlain d = true) →
      (surfaceFrom Scan.start offset before (text ++ cs)).isSome := by
    intro text
    induction text with
    | nil => exact fun _ _ _ => surfaceFrom_isSome h
    | cons d text ih =>
      intro offset before plain
      rw [List.cons_append, surfaceFrom_plain (plain d List.mem_cons_self), Option.isSome_map]
      exact ih _ _ fun e he => plain e (List.mem_cons_of_mem _ he)
  obtain ⟨places, hp⟩ := Option.isSome_iff_exists.mp
    (balanced text (offset + 1) (some c) fun d hd => plain d (List.mem_cons_of_mem _ hd))
  refine ⟨places, ?_⟩
  rw [List.cons_append, surfaceFrom_plain (plain c List.mem_cons_self), hp]
  rfl

theorem operator_plain (op : Operator) : op.text.all isPlain = true := by
  rcases op with _ | _ | _ | op
  · decide
  · decide
  · decide
  · cases op <;> decide

/-- An operator between two balanced texts is on the surface. -/
theorem surface_join {a b : List Char} (op : Operator) (ha : (surface? a).isSome) (hb : (surface? b).isSome) :
    ∃ places, surface? (a ++ (op.text ++ b)) = some places ∧ ⟨a.length, a.getLast?, op.text ++ b⟩ ∈ places := by
  obtain ⟨c, text, htext⟩ := List.exists_cons_of_ne_nil op.text_ne_nil
  have plain := List.all_eq_true.mp (operator_plain op)
  rw [htext] at plain ⊢
  obtain ⟨places, hp⟩ := surfaceFrom_operator (0 + a.length) (a.getLast?.or none) plain hb
  obtain ⟨first, hf⟩ := surfaceFrom_append ha hp
  refine ⟨_, hf, List.mem_append_right _ ?_⟩
  simp

/-! ## Operators between texts -/

/-- No operator in front of this text would be another with it. -/
def Begins (cs : List Char) : Prop := ∀ c, cs.head? = some c → c ≠ '|' ∧ c ≠ '=' ∧ c ≠ '>' ∧ c ≠ '*'

/-- No operator behind this text would be half of another with it. -/
def Ends (cs : List Char) : Prop := ∀ c, cs.getLast? = some c → c ≠ '=' ∧ c ≠ '-' ∧ c ≠ '*'

theorem operatorAt_begins (op : Operator) {cs : List Char} (h : Begins cs) :
    operatorAt? (op.text ++ cs) = some (op, cs) := by
  refine operatorAt_eq_some.mpr ⟨rfl, fun c hc hhead => ?_⟩
  obtain ⟨pipe, equal, arrow, star⟩ := h c hhead
  rcases op with _ | _ | _ | op
  · exact pipe (Option.some.inj hc).symm
  · cases hc
  · cases hc
  · cases op
    case less => exact equal (Option.some.inj hc).symm
    case greater => exact equal (Option.some.inj hc).symm
    case subtract => exact arrow (Option.some.inj hc).symm
    case multiply => exact star (Option.some.inj hc).symm
    all_goals cases hc

/-- An operator of a level is found between two texts neither of which it would be half of another
    operator with. Only a single star takes in another one. -/
theorem find_beside {c : Connective} {r : InfixRule} (hr : c.level.infix? = some r) {a b : List Char}
    (last : ∀ d, a.getLast? = some d → d ≠ '=' ∧ d ≠ '-') (first : ∀ d, b.head? = some d → d ≠ '=' ∧ d ≠ '>')
    (stars : c = .binary .multiply → a.getLast? ≠ some '*' ∧ b.head? ≠ some '*') :
    r.find? ⟨a.length, a.getLast?, (Operator.connective c).text ++ b⟩ =
      some ⟨c, (Operator.connective c).text.length⟩ := by
  have lastEqual : a.getLast? ≠ some '=' := fun h => (last _ h).1 rfl
  have lastMinus : a.getLast? ≠ some '-' := fun h => (last _ h).2 rfl
  have equal : ¬ ['='] <+: b := by
    rintro ⟨tail, rfl⟩
    exact (first _ rfl).1 rfl
  have arrow : ¬ ['>'] <+: b := by
    rintro ⟨tail, rfl⟩
    exact (first _ rfl).2 rfl
  rcases c with _ | _ | op
  · cases hr
    simp [orAt?, Place.startsWith, Operator.text]
  · cases hr
    simp [andAt?, Place.startsWith, Operator.text]
  · cases op <;> cases hr
    case binary.equal.refl => simp [comparisonAt?, Place.startsWith, Operator.text, lastEqual]
    case binary.less.refl => simp [comparisonAt?, Place.startsWith, Operator.text, equal]
    case binary.greater.refl => simp [comparisonAt?, Place.startsWith, Operator.text, equal, lastEqual, lastMinus]
    case binary.subtract.refl => simp [sumAt?, Place.startsWith, Operator.text, arrow]
    case binary.multiply.refl =>
      obtain ⟨lastStar, star⟩ := stars rfl
      simp [productAt?, Place.startsWith, Place.isDoubled, Operator.text, star, lastStar]
    all_goals simp [comparisonAt?, sumAt?, productAt?, powerAt?, Place.startsWith, Operator.text]

theorem find_between {c : Connective} {r : InfixRule} (hr : c.level.infix? = some r) {a b : List Char}
    (ha : Ends a) (hb : Begins b) : r.find? ⟨a.length, a.getLast?, (Operator.connective c).text ++ b⟩ =
      some ⟨c, (Operator.connective c).text.length⟩ := by
  refine find_beside hr (fun d hd => ⟨(ha d hd).1, (ha d hd).2.1⟩) (fun d hd => ⟨(hb d hd).2.1, (hb d hd).2.2.1⟩) ?_
  intro _
  exact ⟨fun h => (ha _ h).2.2 rfl, fun h => (hb _ h).2.2.2 rfl⟩

/-! ## Readings -/

section Readings

variable {constant? : Expr → Option Value} {l : Level} {cs a b : List Char} {e x y : Expr}

/-- Does the text begin as an operand does, without a sign? -/
def Unsigned (cs : List Char) : Prop := ∀ c, cs.head? = some c → c ≠ '!' ∧ c ≠ '-' ∧ c ≠ '+'

theorem unsigned_cons {c : Char} (h : c ≠ '!' ∧ c ≠ '-' ∧ c ≠ '+') (cs : List Char) : Unsigned (c :: cs) := by
  intro d hd
  cases hd
  exact h

section Unsigned

variable {m : Type → Type} [Monad m] (parse : Parse m) (walk : Follow m) {s : Span}

theorem signLevel_unsigned (h : Unsigned s.chars) : signLevel parse s = parse .power s := by
  unfold signLevel
  split
  · rename_i tail hs
    exact absurd rfl (h '!' (by rw [hs]; rfl)).1
  · rename_i tail hs
    exact absurd rfl (h '-' (by rw [hs]; rfl)).2.1
  · rename_i tail hs
    exact absurd rfl (h '+' (by rw [hs]; rfl)).2.2
  · rfl

theorem operandLevel_unsigned (h : Unsigned s.chars) :
    operandLevel parse walk s = operand parse s >>= fun (head, rest) => walk head rest := by
  unfold operandLevel
  split
  · rename_i tail hs
    exact absurd rfl (h '-' (by rw [hs]; rfl)).2.1
  · rename_i tail hs
    exact absurd rfl (h '+' (by rw [hs]; rfl)).2.2
  · rfl

end Unsigned

theorem reading_sign (h : Unsigned cs) : reading constant? .sign cs = reading constant? .power cs := by
  show (readSpan constant? .sign ⟨0, cs⟩).run.run = (readSpan constant? .power ⟨0, cs⟩).run.run
  rw [readSpan_eq]
  split
  · rename_i hs
    rw [readSpan_eq, if_pos hs]
  · exact congrArg (fun v : OptionT Id Expr => v.run.run) (signLevel_unsigned (readSpan constant?) (s := ⟨0, cs⟩) h)

/-- What the level makes of a text: the tree of the split that succeeds, or else what the next makes of it. -/
theorem reading_splits (sign : l ≠ .sign) (operand : l ≠ .operand) {places : List Place} (h : surface? cs = some places) :
    reading constant? l cs = (firstSuccess (SplitPoint.attempt (readSpan constant?) (followSpan constant?) l ⟨0, cs⟩)
      (l.splitPoints places)).run.run.or (reading constant? l.tighter cs) := by
  have eq : readSpan constant? l ⟨0, cs⟩ = _ := readSpan_splits constant? l sign operand h
  exact (congrArg (fun v : OptionT Id Expr => v.run.run) eq).trans (run_orElse _ _)

/-- What a text is at a level it is at the next weaker one. -/
theorem reading_of_tighter (operand : l ≠ .operand) (hs : (surface? cs).isSome) (hu : Unsigned cs)
    (h : reading constant? l.tighter cs = some e) : reading constant? l cs = some e := by
  by_cases sign : l = .sign
  · subst sign
    rw [reading_sign hu]
    exact h
  · obtain ⟨places, hp⟩ := Option.isSome_iff_exists.mp hs
    rw [reading_splits sign operand hp]
    rcases hf : (firstSuccess (SplitPoint.attempt (readSpan constant?) (followSpan constant?) l ⟨0, cs⟩)
      (l.splitPoints places)).run.run with _ | x
    · exact h
    · obtain ⟨a, ha, hx⟩ := (firstSuccess_eq_some (splits_agree constant? l hp)).mp hf
      have none := reading_tighter_of_split hp ha hx (Level.rank_tighter operand)
      exact absurd (h.symm.trans none) nofun

/-- What a level accepts, every weaker level accepts. -/
theorem reading_weaken (hs : (surface? cs).isSome) (hu : Unsigned cs) (h : reading constant? l cs = some e) {l' : Level}
    (hl : l.rank ≤ l'.rank) : reading constant? l' cs = some e := by
  apply Level.weaken (fun l operand tighter => reading_of_tighter operand hs hu tighter) h hl

theorem surface_of_reading (sign : l ≠ .sign) (operand : l ≠ .operand) (h : reading constant? l cs = some e) :
    (surface? cs).isSome := by
  have h : (readSpan constant? l ⟨0, cs⟩).run.run = some e := h
  rw [readSpan_eq] at h
  split at h
  · cases h
  · rw [rule_splits _ _ sign operand] at h
    rcases hp : surface? cs with _ | places
    · rw [hp] at h
      cases h
    · rfl

/-- Without operators there is nothing to split. -/
theorem reading_of_weaker (operand : l ≠ .operand) (plain : Operators .operand 0 cs []) (hu : Unsigned cs)
    (h : reading constant? l cs = some e) : reading constant? l.tighter cs = some e := by
  by_cases sign : l = .sign
  · subst sign
    rwa [reading_sign hu] at h
  · obtain ⟨places, hp⟩ := Option.isSome_iff_exists.mp (surface_of_reading sign operand h)
    rw [reading_splits sign operand hp] at h
    rcases hf : (firstSuccess (SplitPoint.attempt (readSpan constant?) (followSpan constant?) l ⟨0, cs⟩)
      (l.splitPoints places)).run.run with _ | x
    · rw [hf] at h
      exact h
    · obtain ⟨a, ha, hx⟩ := (firstSuccess_eq_some (splits_agree constant? l hp)).mp hf
      obtain ⟨left, op, right, ho, -⟩ := operators_of_split hp ha hx
      have none := ho.unique plain
      simp at none

/-- A text without operators is an operand. -/
theorem reading_operand (plain : Operators .operand 0 cs []) (hu : Unsigned cs)
    (h : reading constant? l cs = some e) : reading constant? .operand cs = some e := by
  have steps : ∀ (n : Nat) (l : Level), l.rank = n → reading constant? l cs = some e →
      reading constant? .operand cs = some e := by
    intro n
    induction n with
    | zero =>
      intro l hl h
      rwa [Level.eq_of_rank (show l.rank = Level.operand.rank from hl)] at h
    | succ n ih =>
      intro l hl h
      have operand : l ≠ .operand := by
        rintro rfl
        cases hl
      have hsucc := Level.rank_succ operand
      exact ih l.tighter (by omega) (reading_of_weaker operand plain hu h)
  exact steps _ l rfl h

theorem operator_mem_splitPoints {r : InfixRule} (hr : l.infix? = some r) {places : List Place} {p : Place}
    (hp : p ∈ places) {found : Found} (hf : r.find? p = some found) : .operator r p found ∈ l.splitPoints places := by
  have hmem : (p, found) ∈ places.filterMap fun p => (r.find? p).map (p, ·) :=
    List.mem_filterMap.mpr ⟨p, hp, by rw [hf]; rfl⟩
  have candidate : (p, found) ∈ r.candidates places := by
    unfold InfixRule.candidates
    dsimp only
    split
    · exact hmem
    · exact List.mem_reverse.mpr hmem
  simp only [Level.splitPoints, hr]
  exact List.mem_map.mpr ⟨_, candidate, rfl⟩

/-- Two texts joined by an operator of a level that is found there, each something at the level of its side. -/
theorem reading_join_of_found {c : Connective} {r : InfixRule} (hr : c.level.infix? = some r)
    (sa : (surface? a).isSome) (sb : (surface? b).isSome)
    (found : r.find? ⟨a.length, a.getLast?, (Operator.connective c).text ++ b⟩ =
      some ⟨c, (Operator.connective c).text.length⟩)
    (hx : reading constant? (r.leftLevel c.level) a = some x) (hy : reading constant? (r.rightLevel c.level) b = some y) :
    reading constant? c.level (a ++ ((Operator.connective c).text ++ b)) = some (c.apply x y) := by
  have sign : c.level ≠ .sign := by
    intro h
    rw [h] at hr
    cases hr
  have operand : c.level ≠ .operand := by
    intro h
    rw [h] at hr
    cases hr
  obtain ⟨places, hp, hmem⟩ := surface_join (.connective c) sa sb
  have hsplit : SplitPoint.operator r ⟨a.length, a.getLast?, (Operator.connective c).text ++ b⟩
      ⟨c, (Operator.connective c).text.length⟩ ∈ c.level.splitPoints places :=
    operator_mem_splitPoints hr hmem found
  have success : (SplitPoint.attempt (readSpan constant?) (followSpan constant?) c.level
      ⟨0, a ++ ((Operator.connective c).text ++ b)⟩ (.operator r ⟨a.length, a.getLast?, (Operator.connective c).text ++ b⟩
        ⟨c, (Operator.connective c).text.length⟩)).run.run = some (c.apply x y) := by
    have right : (Span.tail ⟨0, a ++ ((Operator.connective c).text ++ b)⟩
        (a.length + (Operator.connective c).text.length)).chars = b := by
      simp [Span.tail, ← List.drop_drop]
    have left : (Span.slice ⟨0, a ++ ((Operator.connective c).text ++ b)⟩ 0 a.length).chars = a := by
      simp [Span.slice]
    simp only [SplitPoint.attempt, run_bind]
    show (reading constant? (r.rightLevel c.level) (Span.tail _ _).chars).bind _ = _
    rw [right, hy]
    show (reading constant? (r.leftLevel c.level) (Span.slice _ _ _).chars).bind _ = _
    rw [left, hx]
    rfl
  rw [reading_splits sign operand hp, (firstSuccess_eq_some (splits_agree constant? _ hp)).mpr ⟨_, hsplit, success⟩]
  rfl

/-- Two texts that no operator takes anything from, joined by one. -/
theorem reading_join {c : Connective} {r : InfixRule} (hr : c.level.infix? = some r)
    (sa : (surface? a).isSome) (sb : (surface? b).isSome) (ha : Ends a) (hb : Begins b)
    (hx : reading constant? (r.leftLevel c.level) a = some x) (hy : reading constant? (r.rightLevel c.level) b = some y) :
    reading constant? c.level (a ++ ((Operator.connective c).text ++ b)) = some (c.apply x y) :=
  reading_join_of_found hr sa sb (find_between hr ha hb) hx hy

end Readings

end Groq.Query
