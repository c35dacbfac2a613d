/-
  Groq.Proofs.Query.WellFormed — the shape of the trees that parsing makes.

  Evaluation relies on shapes it does not check: a projection has an object for its body, an index is
  not negative, sort marks stand only behind a pipe. `Node` says what holds of one node and its
  parts. The operands of an operator bind as tightly as the level they were read at (`StandsBeside`),
  so a tree read at a level is of that level or a tighter one; what traversals apply to is never an
  operator.
  Proved: if the trees of shorter stretches are well formed, so are those that a rule makes of them
  (`rule_formed`); hence every tree that parsing returns is (`parse_wellFormed`).
-/

import Mathlib.Algebra.Group.Int.Defs
import Groq.Proofs.Query.Limits
import Groq.Proofs.Query.Nesting

namespace Groq

/-! ## Well-formed trees -/

def Value.isScalar : Value → Bool
  | null | bool _ | number _ | string _ => true
  | _ => false

namespace Expr

open Query

def isOperator : Expr → Bool
  | or _ _ | and _ _ | binary _ _ _ | not _ | neg _ | pos _ => true
  | _ => false

def isSortMark : Expr → Bool
  | asc _ | desc _ => true
  | _ => false

/-- The weakest level that an expression without brackets needs. A sign before an operand binds
    tighter than any operator, so `neg` and `pos` are operands. -/
def outermost : Expr → Level
  | or _ _ => .or
  | and _ _ => .and
  | binary op _ _ => BinaryOp.level op
  | not _ => .sign
  | _ => .operand

/-- May an expression stand on this side of an operator without brackets? It binds more tightly, or
    as tightly where the operators of the level associate to that side. -/
def StandsBeside (l : Level) (side : Associativity) (e : Expr) : Prop :=
  e.outermost.rank < l.rank ∨ e.outermost = l ∧ l.infix?.map (·.associativity) = some side

/-- The parts that cannot be sort marks: all but the arguments behind a pipe. -/
def keyless : Expr → List Expr
  | pipeCall _ base _ => [base]
  | e => e.parts

/-- What holds of a node, whatever its parts are like inside. -/
def Node (constant? : Expr → Option Value) : Expr → Prop
  | literal v => v.isScalar = true
  | parent levels => 1 ≤ levels
  | field base _ | deref base | arrayCoerce base => base.isOperator = false
  | element base index => base.isOperator = false ∧ 0 ≤ index ∧ index ≤ 2 ^ 53
  | slice base left right _ =>
    base.isOperator = false ∧ (-2 ^ 53 ≤ left ∧ left ≤ 2 ^ 53) ∧ -2 ^ 53 ≤ right ∧ right ≤ 2 ^ 53
  | filter base body =>
    base.isOperator = false ∧ ∀ v, constant? body = some v → v.number? = none ∧ v.string? = none
  | projection _ body => ∃ attributes, body = object attributes
  | neg base | pos base => ∀ x, base ≠ literal (.number x)
  | or left right => StandsBeside .or .left left ∧ StandsBeside .or .right right
  | and left right => StandsBeside .and .left left ∧ StandsBeside .and .right right
  | binary op left right => StandsBeside (BinaryOp.level op) .left left ∧ StandsBeside (BinaryOp.level op) .right right
  | _ => True

/-- The property holds of a tree and of every node inside it. -/
inductive Everywhere (p : Expr → Prop) : Expr → Prop
  | node {e : Expr} : p e → (∀ part ∈ e.parts, Everywhere p part) → Everywhere p e

structure WellFormed (constant? : Expr → Option Value) (e : Expr) : Prop where
  unmarked : e.isSortMark = false
  nodes : e.Everywhere fun node => node.Node constant? ∧ ∀ part ∈ node.keyless, part.isSortMark = false

section Building

variable {constant? : Expr → Option Value} {e part left right : Expr}

/-- A node over well-formed parts. -/
theorem WellFormed.over (mark : e.isSortMark = false) (positions : e.keyless = e.parts) (node : e.Node constant?)
    (parts : ∀ part ∈ e.parts, part.WellFormed constant?) : e.WellFormed constant? := by
  refine ⟨mark, .node ⟨node, fun part mem => ?_⟩ fun part mem => (parts part mem).nodes⟩
  rw [positions] at mem
  exact (parts part mem).unmarked

theorem WellFormed.leaf (mark : e.isSortMark = false) (positions : e.keyless = e.parts) (node : e.Node constant?)
    (parts : e.parts = []) : e.WellFormed constant? := by
  refine .over mark positions node ?_
  rw [parts]
  exact nofun

theorem WellFormed.single (mark : e.isSortMark = false) (positions : e.keyless = e.parts) (node : e.Node constant?)
    (parts : e.parts = [part]) (h : part.WellFormed constant?) : e.WellFormed constant? := by
  refine .over mark positions node ?_
  rw [parts]
  exact List.forall_mem_singleton.mpr h

theorem WellFormed.pair (mark : e.isSortMark = false) (positions : e.keyless = e.parts) (node : e.Node constant?)
    (parts : e.parts = [left, right]) (hl : left.WellFormed constant?) (hr : right.WellFormed constant?) :
    e.WellFormed constant? := by
  refine .over mark positions node ?_
  rw [parts]
  exact List.forall_mem_cons.mpr ⟨hl, List.forall_mem_singleton.mpr hr⟩

end Building

end Expr

namespace Query

open Groq.Expr

/-- What is read at a level: nothing in it is weaker outside brackets. -/
structure FormedAt (constant? : Expr → Option Value) (l : Level) (e : Expr) : Prop
    extends e.WellFormed constant? where
  binds : e.outermost.rank ≤ l.rank

/-- What a traversal may apply to. -/
structure FormedBase (constant? : Expr → Option Value) (e : Expr) : Prop extends e.WellFormed constant? where
  plain : e.isOperator = false

theorem outermost_of_plain {e : Expr} (h : e.isOperator = false) : e.outermost = .operand := by
  cases e <;> first | rfl | cases h

section Rules

variable {constant? : Expr → Option Value} {parse : Parse Id} {walk : Follow Id} {s : Span}

theorem FormedBase.at {e : Expr} (h : FormedBase constant? e) (l : Level) : FormedAt constant? l e := by
  refine ⟨h.toWellFormed, ?_⟩
  rw [outermost_of_plain h.plain]
  exact Nat.zero_le _

theorem FormedAt.weaken {l l' : Level} {e : Expr} (h : FormedAt constant? l e) (le : l.rank ≤ l'.rank) :
    FormedAt constant? l' e := ⟨h.toWellFormed, Nat.le_trans h.binds le⟩

/-! ## Signs and operators -/

theorem negate_formed {l : Level} {e : Expr} (h : FormedAt constant? l e) (l' : Level) :
    FormedAt constant? l' e.negate := by
  unfold Expr.negate
  split
  · exact ⟨.leaf rfl rfl rfl rfl, Nat.zero_le _⟩
  · rename_i other
    exact ⟨.single rfl rfl (fun x hx => other x hx) rfl h.toWellFormed, Nat.zero_le _⟩

theorem positive_formed {l : Level} {e : Expr} (h : FormedAt constant? l e) (l' : Level) :
    FormedAt constant? l' e.positive := by
  unfold Expr.positive
  split
  · exact ⟨.leaf rfl rfl rfl rfl, Nat.zero_le _⟩
  · rename_i other
    exact ⟨.single rfl rfl (fun x hx => other x hx) rfl h.toWellFormed, Nat.zero_le _⟩

theorem not_formed {e : Expr} (h : FormedAt constant? .sign e) : FormedAt constant? .sign (.not e) :=
  ⟨.single rfl rfl trivial rfl h.toWellFormed, Nat.le_refl _⟩

section Sides

variable {l : Level} {r : InfixRule} (hr : l.infix? = some r) {e : Expr}

include hr

theorem standsBeside_left (h : e.outermost.rank ≤ (r.leftLevel l).rank) : e.StandsBeside l .left := by
  have operand : l ≠ .operand := by
    rintro rfl
    cases hr
  rw [leftLevel_eq] at h
  split at h
  · rename_i left
    rcases Nat.lt_or_eq_of_le h with tighter | same
    · exact .inl tighter
    · refine .inr ⟨Level.eq_of_rank same, ?_⟩
      rw [hr, ← left]
      rfl
  · exact .inl (Nat.lt_of_le_of_lt h (Level.rank_tighter operand))

theorem standsBeside_right (h : e.outermost.rank ≤ (r.rightLevel l).rank) : e.StandsBeside l .right := by
  have operand : l ≠ .operand := by
    rintro rfl
    cases hr
  rw [rightLevel_eq] at h
  split at h
  · rename_i right
    rcases Nat.lt_or_eq_of_le h with tighter | same
    · exact .inl tighter
    · refine .inr ⟨Level.eq_of_rank same, ?_⟩
      rw [hr, ← right]
      rfl
  · exact .inl (Nat.lt_of_le_of_lt h (Level.rank_tighter operand))

theorem connective_formed {c : Connective} (hc : c.level = l) {left right : Expr}
    (hleft : FormedAt constant? (r.leftLevel l) left) (hright : FormedAt constant? (r.rightLevel l) right) :
    FormedAt constant? l (c.apply left right) := by
  subst hc
  have beside := And.intro (standsBeside_left hr hleft.binds) (standsBeside_right hr hright.binds)
  refine ⟨?_, ?_⟩
  · cases c <;> exact .pair rfl rfl beside rfl hleft.toWellFormed hright.toWellFormed
  · cases c <;> exact Nat.le_refl _

end Sides

/-! ## Lists -/

/-- An argument: only behind a pipe may it be a sort mark. -/
structure FormedArgument (constant? : Expr → Option Value) (sortKeys : Bool) (e : Expr) : Prop where
  unmarked : sortKeys = false → e.isSortMark = false
  nodes : e.Everywhere fun node => node.Node constant? ∧ ∀ part ∈ node.keyless, part.isSortMark = false

theorem argument_formed (sortKeys : Bool) (hp : ∀ l t, t.Within s → Yields (parse l t) (FormedAt constant? l)) :
    Yields (argument parse sortKeys s) (FormedArgument constant? sortKeys) := by
  have marked (f : Expr → Expr) (parts : ∀ e, (f e).parts = [e] ∧ (f e).keyless = [e] ∧ (f e).Node constant?)
      (t : Span) (ht : t.Within s) (keys : sortKeys = true) :
      Yields (f <$> parse .pipe t) (FormedArgument constant? sortKeys) := by
    refine yields_map f fun e he => ⟨fun h => absurd (keys.symm.trans h) nofun, ?_⟩
    have key := hp _ _ ht e he
    obtain ⟨hparts, hkeyless, node⟩ := parts e
    refine .node ⟨node, ?_⟩ ?_
    · rw [hkeyless]
      exact List.forall_mem_singleton.mpr key.unmarked
    · rw [hparts]
      exact List.forall_mem_singleton.mpr key.nodes
  unfold argument
  refine yields_ite (fun h => marked .desc (fun _ => ⟨rfl, rfl, trivial⟩) _ (s.within_slice _ _) h.1) fun _ => ?_
  refine yields_ite (fun h => marked .asc (fun _ => ⟨rfl, rfl, trivial⟩) _ (s.within_slice _ _) h.1) fun _ e he => ?_
  have plain := hp _ _ (.refl s) e he
  exact ⟨fun _ => plain.unmarked, plain.nodes⟩

theorem arguments_formed (sortKeys : Bool) (hp : ∀ l t, t.Within s → Yields (parse l t) (FormedAt constant? l)) :
    Yields (arguments parse sortKeys s) fun args => ∀ e ∈ args, FormedArgument constant? sortKeys e := by
  unfold arguments
  refine yields_ite (fun _ => yields_pure nofun) fun _ => yields_bind fun pieces h => yields_mapM fun t ht => ?_
  have within := Span.within_pieces h t ht
  exact argument_formed sortKeys fun l u hu => hp l u (hu.trans within)

theorem arrayElements_formed (hp : ∀ l t, t.Within s → Yields (parse l t) (FormedAt constant? l)) :
    Yields (arrayElements parse s) fun entries => ∀ entry ∈ entries, entry.value.WellFormed constant? := by
  refine yields_bind fun items h => yields_mapM fun t ht => ?_
  have within := Span.within_items h t ht
  unfold arrayElement
  refine yields_ite (fun _ => yields_map _ fun e he => ?_) fun _ => yields_map _ fun e he => ?_
  · exact (hp _ _ ((t.within_tail 3).trans within) e he).toWellFormed
  · exact (hp _ _ within e he).toWellFormed

theorem objectAttribute_formed (hp : ∀ l t, t.Within s → Yields (parse l t) (FormedAt constant? l)) :
    Yields (objectAttribute parse s) fun entry => entry.value.WellFormed constant? := by
  unfold objectAttribute
  refine yields_ite (fun _ => ?splat) fun _ => ?_
  case splat =>
    exact yields_ite (fun _ => yields_pure (.leaf rfl rfl trivial rfl)) fun _ =>
      yields_map _ fun e he => (hp _ _ (s.within_tail 3) e he).toWellFormed
  split
  · exact yields_ite (fun _ => yields_bind fun name _ =>
      yields_map _ fun e he => (hp _ _ (s.within_tail _) e he).toWellFormed) fun _ => yields_failure
  · exact yields_bind fun value hv => yields_bind fun name _ => yields_pure (hp _ _ (.refl s) value hv).toWellFormed

/-- An object, to be the body of a projection or stand by itself. -/
theorem objectBody_formed (hp : ∀ l t, t.Within s → Yields (parse l t) (FormedAt constant? l)) :
    Yields (objectBody parse s) fun e => (∃ attributes, e = .object attributes) ∧ FormedBase constant? e := by
  refine yields_bind fun items h => yields_bind fun entries he => yields_pure ⟨⟨entries, rfl⟩, ?_, rfl⟩
  have each : Yields (items.mapM (objectAttribute parse)) fun entries =>
      ∀ entry ∈ entries, entry.value.WellFormed constant? :=
    yields_mapM fun t ht => objectAttribute_formed fun l u hu => hp l u (hu.trans (Span.within_items h t ht))
  exact .over rfl rfl trivial (List.forall_mem_map.mpr (each entries he))

/-! ## Traversals -/

theorem integer_bounds {x : Float} {n : Int} (h : Double.integer? x = some n) : -2 ^ 53 ≤ n ∧ n ≤ 2 ^ 53 := by
  simp only [Double.integer?, Option.bind_eq_bind, Option.bind_eq_some_iff] at h
  obtain ⟨m, -, h⟩ := h
  split at h
  · rename_i small
    cases h
    have small : n.natAbs ≤ 2 ^ 53 := small
    omega
  · cases h

theorem sliceBound_bounds (t : Span) : Yields (sliceBound constant? parse t) fun n => -2 ^ 53 ≤ n ∧ n ≤ 2 ^ 53 := by
  refine yields_bind fun e _ n hn => ?_
  have hn : (constant? e).bind Value.integer? = some n := hn
  obtain ⟨v, -, hv⟩ := Option.bind_eq_some_iff.mp hn
  cases v with
  | number x => exact integer_bounds hv
  | _ => cases hv

theorem elementAt_formed {base : Expr} (hb : FormedBase constant? base) {index : Int}
    (bounds : -2 ^ 53 ≤ index ∧ index ≤ 2 ^ 53) : FormedBase constant? (elementAt base index) := by
  unfold elementAt
  split
  · exact ⟨.single rfl rfl ⟨hb.plain, ‹_›, bounds.2⟩ rfl hb.toWellFormed, rfl⟩
  · have last : Expr.WellFormed constant? (.slice base index index true) :=
      .single rfl rfl ⟨hb.plain, bounds, bounds⟩ rfl hb.toWellFormed
    exact ⟨.single rfl rfl ⟨rfl, by decide, by decide⟩ rfl last, rfl⟩

theorem bracket_formed {base : Expr} (hb : FormedBase constant? base)
    (hp : ∀ l t, t.Within s → Yields (parse l t) (FormedAt constant? l)) :
    Yields (bracket constant? parse base s) (FormedBase constant?) := by
  unfold bracket
  refine yields_ite (fun _ => yields_pure ⟨.single rfl rfl hb.plain rfl hb.toWellFormed, rfl⟩) fun _ => ?_
  split
  · refine yields_bind fun left hleft => yields_bind fun right hright => yields_pure ⟨?_, rfl⟩
    exact .single rfl rfl ⟨hb.plain, sliceBound_bounds _ left hleft, sliceBound_bounds _ right hright⟩ rfl
      hb.toWellFormed
  · refine yields_bind fun inner hi => ?_
    split
    · exact yields_bind fun index hindex => yields_pure (elementAt_formed hb (integer_bounds hindex))
    · exact yields_pure ⟨.single rfl rfl hb.plain rfl hb.toWellFormed, rfl⟩
    · rename_i number string
      have condition : ∀ v, constant? inner = some v → v.number? = none ∧ v.string? = none := by
        intro v hv
        cases v with
        | number x => exact absurd hv (number x)
        | string name => exact absurd hv (string name)
        | _ => exact ⟨rfl, rfl⟩
      have body := (hp _ _ (.refl s) inner hi).toWellFormed
      exact yields_pure ⟨.pair rfl rfl ⟨hb.plain, condition⟩ rfl hb.toWellFormed body, rfl⟩

theorem projection_formed {base body : Expr} (hb : base.WellFormed constant?)
    (h : (∃ attributes, body = .object attributes) ∧ FormedBase constant? body) :
    FormedBase constant? (.projection base body) :=
  ⟨.pair rfl rfl h.1 rfl hb h.2.toWellFormed, rfl⟩

theorem traversal_formed {base : Expr} (hb : FormedBase constant? base)
    (hp : ∀ l t, t.Inside s → Yields (parse l t) (FormedAt constant? l)) :
    Yields (traversal constant? parse base s) fun x => FormedBase constant? x.1 := by
  have field {e : Expr} (he : FormedBase constant? e) (name : String) : FormedBase constant? (.field e name) :=
    ⟨.single rfl rfl he.plain rfl he.toWellFormed, rfl⟩
  have deref : FormedBase constant? (.deref base) := ⟨.single rfl rfl hb.plain rfl hb.toWellFormed, rfl⟩
  have enclosed {i r : Span} (h : s.enclosed? = some (i, r)) :
      ∀ l t, t.Within i → Yields (parse l t) (FormedAt constant? l) :=
    fun l t ht => hp l t (ht.trans_inside (Span.inside_enclosed h).1)
  unfold traversal
  split
  · exact yields_ite (fun _ => yields_failure) fun _ => yields_pure (field hb _)
  · exact yields_ite (fun _ => yields_pure deref) fun _ => yields_pure (field deref _)
  · exact yields_bind fun (i, r) h => yields_bind fun e he => yields_pure (bracket_formed hb (enclosed h) e he)
  · exact yields_bind fun (i, r) h => yields_bind fun body he =>
      yields_pure (projection_formed hb.toWellFormed (objectBody_formed (enclosed h) body he))
  · exact yields_failure

/-! ## Operands -/

theorem callOperand_formed (library name : List Char) {t : Span} (ht : t.Within s)
    (hp : ∀ l t, t.Inside s → Yields (parse l t) (FormedAt constant? l)) :
    Yields (callOperand parse library name t) fun x => FormedBase constant? x.1 := by
  refine yields_bind fun (i, r) h => yields_bind fun args ha => yields_pure ⟨?_, rfl⟩
  have each := arguments_formed false
    (fun l u hu => hp l u ((hu.trans_inside (Span.inside_enclosed h).1).trans_within ht)) args ha
  exact .over rfl rfl trivial fun part mem => ⟨(each part mem).unmarked rfl, (each part mem).nodes⟩

theorem nameOperand_formed (name : String) : FormedBase constant? (nameOperand name) := by
  unfold nameOperand
  repeat' split
  all_goals first
    | exact ⟨.leaf rfl rfl rfl rfl, rfl⟩
    | exact ⟨.leaf rfl rfl trivial rfl, rfl⟩

theorem namedOperand_formed (hp : ∀ l t, t.Inside s → Yields (parse l t) (FormedAt constant? l)) :
    Yields (namedOperand parse s) fun x => FormedBase constant? x.1 := by
  unfold namedOperand
  simp only []
  split
  · exact yields_ite (fun _ => yields_failure) fun _ =>
      callOperand_formed _ _ ((Span.within_tail _ _).trans (s.within_tail _)) hp
  · exact callOperand_formed _ _ (s.within_tail _) hp
  · exact yields_pure (nameOperand_formed _)

theorem operand_formed (hp : ∀ l t, t.Inside s → Yields (parse l t) (FormedAt constant? l)) :
    Yields (operand parse s) fun x => FormedBase constant? x.1 := by
  have enclosed {i r : Span} (h : s.enclosed? = some (i, r)) :
      ∀ l t, t.Within i → Yields (parse l t) (FormedAt constant? l) :=
    fun l t ht => hp l t (ht.trans_inside (Span.inside_enclosed h).1)
  have leaf {e : Expr} (mark : e.isSortMark = false) (positions : e.keyless = e.parts) (node : e.Node constant?)
      (parts : e.parts = []) (plain : e.isOperator = false) : FormedBase constant? e :=
    ⟨.leaf mark positions node parts, plain⟩
  unfold operand
  split
  · exact yields_failure
  refine yields_ite (fun _ => ?literal) fun _ => yields_ite (fun _ => ?number) fun _ =>
    yields_ite (fun _ => ?parameter) fun _ => ?_
  case literal => exact yields_bind fun length _ => yields_bind fun text _ => yields_pure (leaf rfl rfl rfl rfl rfl)
  case number => exact yields_bind fun numeral _ => yields_pure (leaf rfl rfl rfl rfl rfl)
  case parameter => exact yields_ite (fun _ => yields_failure) fun _ => yields_pure (leaf rfl rfl trivial rfl rfl)
  refine yields_ite (fun _ => yields_pure (leaf rfl rfl trivial rfl rfl)) fun _ => ?_
  refine yields_ite (fun _ => yields_pure (leaf rfl rfl (Nat.le_add_right _ _) rfl rfl)) fun _ => ?_
  refine yields_ite (fun _ => yields_pure (leaf rfl rfl trivial rfl rfl)) fun _ => ?_
  refine yields_ite (fun _ => ?group) fun _ => yields_ite (fun _ => ?array) fun _ =>
    yields_ite (fun _ => ?object) fun _ => yields_ite (fun _ => namedOperand_formed hp) fun _ => yields_failure
  case group =>
    refine yields_bind ?_
    rintro ⟨i, r⟩ h
    refine yields_bind fun e he => yields_pure ⟨?_, rfl⟩
    exact .single rfl rfl trivial rfl (enclosed h _ _ (.refl i) e he).toWellFormed
  case array =>
    refine yields_bind ?_
    rintro ⟨i, r⟩ h
    refine yields_bind fun entries he => yields_pure ⟨?_, rfl⟩
    exact .over rfl rfl trivial (List.forall_mem_map.mpr (arrayElements_formed (enclosed h) entries he))
  case object =>
    refine yields_bind ?_
    rintro ⟨i, r⟩ h
    exact yields_bind fun e he => yields_pure (objectBody_formed (enclosed h) e he).2

/-! ## Levels -/

variable (hp : ∀ l t, t.Inside s → Yields (parse l t) (FormedAt constant? l))
  (hw : ∀ e t, t.Inside s → FormedBase constant? e → Yields (walk e t) (FormedBase constant?))

include hp hw in
theorem pipeTarget_formed {base : Expr} (hb : base.WellFormed constant?) {t : Span} (ht : t.Within s) :
    Yields (pipeTarget parse walk base t) (FormedBase constant?) := by
  unfold pipeTarget
  split
  · refine yields_bind fun (i, r) h => yields_bind fun body he => ?_
    obtain ⟨shorter, after⟩ := Span.inside_enclosed h
    have object := objectBody_formed (fun l u hu => hp l u ((hu.trans_inside shorter).trans_within ht)) body he
    exact hw _ r (after.trans_within ht) (projection_formed hb object)
  · refine yields_ite (fun _ => yields_failure) fun _ => yields_bind fun (i, r) h => yields_bind fun args ha => ?_
    have within := (t.within_tail (nameAt t.chars).length).trans ht
    obtain ⟨shorter, after⟩ := Span.inside_enclosed h
    have each := arguments_formed true (fun l u hu => hp l u ((hu.trans_inside shorter).trans_within within)) args ha
    refine hw _ r (after.trans_within within) ⟨⟨rfl, .node ⟨trivial, ?_⟩ ?_⟩, rfl⟩
    · exact List.forall_mem_singleton.mpr hb.unmarked
    · exact List.forall_mem_cons.mpr ⟨hb.nodes, fun e he => (each e he).nodes⟩

include hp hw in
theorem pipeLevel_formed (tighter : Yields (parse .or s) (FormedAt constant? .or)) :
    Yields (pipeLevel parse walk s) (FormedAt constant? .pipe) := by
  refine yields_bind fun places h => yields_orElse (yields_firstSuccess fun p mem => ?_) fun e he =>
    (tighter e he).weaken (by decide)
  have lt := (surface_place h (List.mem_filter.mp (List.mem_reverse.mp mem)).1).1
  refine yields_bind fun base hb e he => ?_
  have left := hp _ _ (Span.inside_slice (by omega)) base hb
  exact (pipeTarget_formed hp hw left.toWellFormed (s.within_tail (p.offset + 1)) e he).at .pipe

include hp in
theorem infixLevel_formed {l : Level} {r : InfixRule} (hr : l.infix? = some r)
    (tighter : Yields (parse l.tighter s) (FormedAt constant? l.tighter)) :
    Yields (infixLevel parse l r s) (FormedAt constant? l) := by
  refine yields_bind fun places h => yields_orElse (yields_firstSuccess fun (p, found) mem => ?_) fun e he =>
    (tighter e he).weaken l.rank_tighter_le
  obtain ⟨hplace, hfound⟩ := mem_candidates mem
  have lt : p.offset < s.chars.length := (surface_place h hplace).1
  have ne : s.chars ≠ [] := List.length_pos_iff.mp (by omega)
  have pos : 0 < found.length := find_length hr hfound
  refine yields_bind fun right hright => yields_bind fun left hleft => yields_pure ?_
  exact connective_formed hr (find_operator hr hfound).2 (hp _ _ (Span.inside_slice (by omega)) left hleft)
    (hp _ _ (Span.inside_tail ne (by omega)) right hright)

include hp in
theorem signLevel_formed (tighter : Yields (parse .power s) (FormedAt constant? .power)) :
    Yields (signLevel parse s) (FormedAt constant? .sign) := by
  have power : Yields (parse .power s) (FormedAt constant? .sign) := fun e he => (tighter e he).weaken (by decide)
  have signed {f : Expr → Expr} (hf : ∀ e, FormedAt constant? .sign e → FormedAt constant? .sign (f e))
      (ne : s.chars ≠ []) : Yields (f <$> parse .sign (s.tail 1)) (FormedAt constant? .sign) :=
    yields_map f fun e he => hf e (hp _ _ (Span.inside_tail ne Nat.one_pos) e he)
  unfold signLevel
  split
  · rename_i hs
    exact yields_orElse (signed (fun _ h => not_formed h) (by simp [hs])) power
  · rename_i hs
    exact yields_orElse (signed (fun _ h => negate_formed h _) (by simp [hs])) power
  · rename_i hs
    exact yields_orElse (signed (fun _ h => positive_formed h _) (by simp [hs])) power
  · exact power

include hp hw in
theorem operandLevel_formed : Yields (operandLevel parse walk s) (FormedAt constant? .operand) := by
  have signed {f : Expr → Expr} (hf : ∀ e, FormedAt constant? .operand e → FormedAt constant? .operand (f e))
      (ne : s.chars ≠ []) : Yields (f <$> parse .operand (s.tail 1)) (FormedAt constant? .operand) :=
    yields_map f fun e he => hf e (hp _ _ (Span.inside_tail ne Nat.one_pos) e he)
  unfold operandLevel
  split
  · rename_i hs
    exact signed (fun _ h => negate_formed h _) (by simp [hs])
  · rename_i hs
    exact signed (fun _ h => positive_formed h _) (by simp [hs])
  · refine yields_bind fun (head, rest) h e he => ?_
    exact (hw head rest (operand_rest s _ h).2 (operand_formed hp _ h) e he).at _

include hp hw in
/-- If the trees of shorter stretches are well formed, so are those of this one. -/
theorem rule_formed (l : Level) (tighter : l ≠ .operand → Yields (parse l.tighter s) (FormedAt constant? l.tighter)) :
    Yields (rule parse walk l s) (FormedAt constant? l) := by
  cases l with
  | pipe => exact pipeLevel_formed hp hw (tighter nofun)
  | sign => exact signLevel_formed hp (tighter nofun)
  | operand => exact operandLevel_formed hp hw
  | or | and | comparison | sum | product | power => exact infixLevel_formed hp rfl (tighter nofun)

end Rules

/-! ## Texts -/

variable (constant? : Expr → Option Value)

theorem readSpan_formed : (∀ l s, Yields (readSpan constant? l s) (FormedAt constant? l)) ∧
    ∀ s base, FormedBase constant? base → Yields (followSpan constant? base s) (FormedBase constant?) := by
  refine span_induction (fun s levels walks base hb => ?_) fun l s levels walks tighter => ?_
  · rw [followSpan_eq]
    refine yields_ite (fun _ => yields_pure hb) fun _ => yields_bind fun (e, rest) he => ?_
    exact walks rest (traversal_rest base s _ he).2 e (traversal_formed hb levels _ he)
  · rw [readSpan_eq]
    exact yields_ite (fun _ => yields_failure) fun _ => rule_formed levels (fun e t ht => walks t ht e) l tighter

/-- Every tree that parsing returns is well formed, with the constants of the same limits. -/
theorem parse_wellFormed (limits : Limits) (query : String) (e : Expr) (h : parse limits query = .ok e) :
    e.WellFormed (Groq.constant? limits) := by
  rw [← String.ofList_toList (s := query)] at h
  obtain ⟨n, -, hr⟩ := parse_ok h
  exact ((readSpan_formed (Groq.constant? limits)).1 .pipe ⟨0, n⟩ e hr).toWellFormed

/-- A name in round brackets is a condition where the bound on evaluation does not reach into them, and so
    no constant there. -/
theorem parse_wellFormed_filter :
    parse ⟨256, 1, 256⟩ (String.ofList bracketed) = .ok (.filter (.ownField "a") (.group (.literal (.string "b")))) ∧
      (Expr.filter (.ownField "a") (.group (.literal (.string "b")))).WellFormed (Groq.constant? ⟨256, 1, 256⟩) :=
  ⟨bracket_bound.1, parse_wellFormed ⟨256, 1, 256⟩ (String.ofList bracketed) _ bracket_bound.1⟩

end Query

end Groq
