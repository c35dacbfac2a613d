/-
  Groq.Proofs.Query.Nesting — the operators of a text that parses.

  Whatever a level accepts, a reader from the left can read to its end, and the operators it meets
  are nested as the rules nest them: `Fits`. Signs, brackets and traversals have no part in that. The
  proof goes over the rules once, for any parsers (`rule_accepted`), and then along the recursion.
  Proved: `reading_operators`, and that no operator of a text is weaker than a level that accepts it
  (`Fits.rank_le`).
-/

import Groq.Proofs.Query.Operators
import Groq.Proofs.Query.Reading

namespace Groq.Query

/-! ## Nesting -/

/-- Operators that a level accepts: none, those of a tighter level, or one of its own between those
    of its two sides. The target of a pipe has none. -/
inductive Fits : Level → List (Nat × Operator) → Prop
  | none {l : Level} : Fits l []
  | tighter {l : Level} {ops : List (Nat × Operator)} : Fits l.tighter ops → Fits l ops
  | pipe {ops : List (Nat × Operator)} {offset : Nat} : Fits .pipe ops → Fits .pipe (ops ++ [(offset, .pipe)])
  | split {l : Level} {r : InfixRule} {left right : List (Nat × Operator)} {offset : Nat} {c : Connective} :
      l.infix? = some r → c.level = l → Fits (r.leftLevel l) left → Fits (r.rightLevel l) right →
      Fits l (left ++ (offset, .connective c) :: right)

theorem Level.rank_tighter_le (l : Level) : l.tighter.rank ≤ l.rank := by
  cases l <;> decide

theorem leftLevel_eq (r : InfixRule) (l : Level) :
    r.leftLevel l = if r.associativity = .left then l else l.tighter := by
  unfold InfixRule.leftLevel
  cases r.associativity <;> rfl

theorem rightLevel_eq (r : InfixRule) (l : Level) :
    r.rightLevel l = if r.associativity = .right then l else l.tighter := by
  unfold InfixRule.rightLevel
  cases r.associativity <;> rfl

theorem rank_leftLevel_le (r : InfixRule) (l : Level) : (r.leftLevel l).rank ≤ l.rank := by
  rw [leftLevel_eq]
  split
  · exact Nat.le_refl _
  · exact l.rank_tighter_le

theorem rank_rightLevel_le (r : InfixRule) (l : Level) : (r.rightLevel l).rank ≤ l.rank := by
  rw [rightLevel_eq]
  split
  · exact Nat.le_refl _
  · exact l.rank_tighter_le

/-- No operator is weaker than the level that accepts it. -/
theorem Fits.rank_le {l : Level} {ops : List (Nat × Operator)} (h : Fits l ops) :
    ∀ o ∈ ops, o.2.level.rank ≤ l.rank := by
  induction h with
  | none => nofun
  | @tighter l _ _ ih => exact fun o ho => Nat.le_trans (ih o ho) l.rank_tighter_le
  | pipe _ ih =>
    intro o ho
    rcases List.mem_append.mp ho with ho | ho
    · exact ih o ho
    · rw [List.mem_singleton.mp ho]
      exact Nat.le_refl _
  | @split l r left right offset c _ hc _ _ ihl ihr =>
    intro o ho
    rcases List.mem_append.mp ho with ho | ho
    · exact Nat.le_trans (ihl o ho) (rank_leftLevel_le r l)
    · rcases List.mem_cons.mp ho with rfl | ho
      · rw [← hc]
        exact Nat.le_refl _
      · exact Nat.le_trans (ihr o ho) (rank_rightLevel_le r l)

/-! ## Rules -/

/-- A text a reader from the left can read, with operators that fit a level. -/
def Accepted (l : Level) (cs : List Char) : Prop :=
  ∀ offset, ∃ ops, Operators .operand offset cs ops ∧ Fits l ops

theorem Accepted.tighter {l : Level} {cs : List Char} (h : Accepted l.tighter cs) : Accepted l cs := by
  intro offset
  obtain ⟨ops, ho, hf⟩ := h offset
  exact ⟨ops, ho, hf.tighter⟩

theorem Accepted.sign {l : Level} {c : Char} {cs : List Char} (hc : c = '!' ∨ c = '-' ∨ c = '+') (h : Accepted l cs) :
    Accepted l (c :: cs) := by
  intro offset
  obtain ⟨ops, ho, hf⟩ := h (offset + 1)
  exact ⟨ops, .sign hc ho, hf⟩

/-- The operators on both sides of an operator at a place, and it. -/
theorem Operators.join {s : Span} {places : List Place} {p : Place} {op : Operator} {length offset : Nat}
    {left right : List (Nat × Operator)} (h : surface? s.chars = some places) (hp : p ∈ places)
    (ho : operatorAt? p.rest = some (op, p.rest.drop length))
    (hl : Operators .operand offset (s.slice 0 p.offset).chars left)
    (hr : Operators .operand (offset + p.offset + op.text.length) (s.tail (p.offset + length)).chars right) :
    Operators .operand offset s.chars (left ++ (offset + p.offset, op) :: right) := by
  obtain ⟨hlt, hcs⟩ := surface_place h hp
  have before : (s.slice 0 p.offset).chars = s.chars.take p.offset := by simp [Span.slice]
  have after : (s.tail (p.offset + length)).chars = p.rest.drop length := by
    rw [← surface_drop h hp, List.drop_drop]
    rfl
  have rest : Operators .operator (offset + (s.chars.take p.offset).length) p.rest ((offset + p.offset, op) :: right) := by
    rw [List.length_take_of_le (Nat.le_of_lt hlt)]
    rw [after] at hr
    exact .operator ho hr
  rw [before] at hl
  have joined := hl.append rest
  rwa [← hcs] at joined

section Rules

variable {parse : Parse Id} {walk : Follow Id} {s : Span}
variable (hp : ∀ l t, t.Inside s → Yields (parse l t) fun _ => Accepted l t.chars)
variable (hw : ∀ e t, t.Inside s → Yields (walk e t) fun _ => ∀ offset, Operators .operator offset t.chars [])

/-- A target is read as an operand that traversals follow. -/
theorem pipeTarget_accepted {t : Span} (ht : t.Within s) (base : Expr)
    (hw : ∀ e t, t.Inside s → Yields (walk e t) fun _ => ∀ offset, Operators .operator offset t.chars []) :
    Yields (pipeTarget parse walk base t) fun _ => ∀ offset, Operators .operand offset t.chars [] := by
  unfold pipeTarget
  split
  · rename_i tail hs
    refine yields_bind fun (inside, rest) h => yields_bind fun body _ => ?_
    have h : t.enclosed? = some (inside, rest) := h
    intro e he offset
    have hr : operandRest? t.chars = some rest.chars := by
      rw [← enclosed_rest h, hs]
      rfl
    exact .operand hr (hw _ rest ((Span.inside_enclosed h).2.trans_within ht) e he _)
  · dsimp only
    refine yields_ite (fun _ => yields_failure) fun hname => ?_
    refine yields_bind fun (inside, rest) h => yields_bind fun args _ => ?_
    have h : (t.tail (nameAt t.chars).length).enclosed? = some (inside, rest) := h
    intro e he offset
    have inside := (Span.inside_enclosed h).2.trans_within ((t.within_tail _).trans ht)
    have call : (t.chars.drop (nameAt t.chars).length).head? = some '(' := by
      by_cases hc : (t.chars.drop (nameAt t.chars).length).head? = some '('
      · exact hc
      · exact absurd (.inr hc) hname
    refine .operand ?_ (hw _ rest inside e he _)
    rw [operandRest_of_name fun e => hname (.inl e), namedRest_of_call call]
    exact enclosed_rest h

include hp

theorem signed_accepted {l : Level} {c : Char} {tail : List Char} (hs : s.chars = c :: tail)
    (hc : c = '!' ∨ c = '-' ∨ c = '+') (f : Expr → Expr) :
    Yields (f <$> parse l (s.tail 1)) fun _ => Accepted l s.chars := by
  refine yields_map f fun e he => ?_
  have inner := hp _ _ (Span.inside_tail (by simp [hs]) Nat.one_pos) e he
  have hrest : (s.tail 1).chars = tail := by simp [Span.tail, hs]
  rw [hrest] at inner
  rw [hs]
  exact inner.sign hc

theorem signLevel_accepted (tighter : Yields (parse .power s) fun _ => Accepted .power s.chars) :
    Yields (signLevel parse s) fun _ => Accepted .sign s.chars := by
  have power : Yields (parse .power s) fun _ => Accepted .sign s.chars :=
    fun e he => Accepted.tighter (l := .sign) (tighter e he)
  unfold signLevel
  split
  · exact yields_orElse (signed_accepted hp ‹_› (.inl rfl) _) power
  · exact yields_orElse (signed_accepted hp ‹_› (.inr (.inl rfl)) _) power
  · exact yields_orElse (signed_accepted hp ‹_› (.inr (.inr rfl)) _) power
  · exact power

theorem infixLevel_accepted {l : Level} {r : InfixRule} (hr : l.infix? = some r)
    (tighter : Yields (parse l.tighter s) fun _ => Accepted l.tighter s.chars) :
    Yields (infixLevel parse l r s) fun _ => Accepted l s.chars := by
  refine yields_bind fun places h => yields_orElse (yields_firstSuccess fun (p, found) hmem => ?_) ?_
  · have h : surface? s.chars = some places := h
    obtain ⟨hplace, hfound⟩ := mem_candidates hmem
    obtain ⟨ho, hlevel⟩ := find_operator hr hfound
    have hlt : p.offset < s.chars.length := (surface_place h hplace).1
    have hne : s.chars ≠ [] := List.length_pos_iff.mp (by omega)
    have hpos : 0 < found.length := find_length hr hfound
    refine yields_bind fun right hright => yields_bind fun left hleft => yields_pure fun offset => ?_
    obtain ⟨opsl, hol, hfl⟩ := hp _ _ (Span.inside_slice (by omega)) left hleft offset
    obtain ⟨opsr, hor, hfr⟩ := hp _ _ (Span.inside_tail hne (by omega)) right hright _
    exact ⟨_, .join h hplace ho hol hor, .split hr hlevel hfl hfr⟩
  · exact fun e he => Accepted.tighter (tighter e he)

include hw

theorem pipeLevel_accepted (tighter : Yields (parse .or s) fun _ => Accepted .or s.chars) :
    Yields (pipeLevel parse walk s) fun _ => Accepted .pipe s.chars := by
  refine yields_bind fun places h => yields_orElse (yields_firstSuccess fun p hmem => ?_) ?_
  · have h : surface? s.chars = some places := h
    obtain ⟨hmem, hpipe⟩ := List.mem_filter.mp (List.mem_reverse.mp hmem)
    have hlt := (surface_place h hmem).1
    refine yields_bind fun base hbase e he offset => ?_
    obtain ⟨ops, ho, hf⟩ := hp _ _ (Span.inside_slice (by omega)) base hbase offset
    have target := pipeTarget_accepted (s.within_tail (p.offset + 1)) base hw e he
    exact ⟨_, .join h hmem (pipe_operator hpipe) ho (target _), hf.pipe⟩
  · exact fun e he => Accepted.tighter (l := .pipe) (tighter e he)

theorem operandLevel_accepted : Yields (operandLevel parse walk s) fun _ => Accepted .operand s.chars := by
  unfold operandLevel
  split
  · exact signed_accepted hp ‹_› (.inr (.inl rfl)) _
  · exact signed_accepted hp ‹_› (.inr (.inr rfl)) _
  · refine yields_bind fun (head, rest) h e he offset => ?_
    obtain ⟨hr, inside⟩ := operand_rest s _ h
    exact ⟨[], .operand hr (hw _ _ inside e he _), .none⟩

theorem rule_accepted (l : Level)
    (tighter : l ≠ .operand → Yields (parse l.tighter s) fun _ => Accepted l.tighter s.chars) :
    Yields (rule parse walk l s) fun _ => Accepted l s.chars := by
  cases l with
  | pipe => exact pipeLevel_accepted hp hw (tighter nofun)
  | sign => exact signLevel_accepted hp (tighter nofun)
  | operand => exact operandLevel_accepted hp hw
  | or => exact infixLevel_accepted hp rfl (tighter nofun)
  | and => exact infixLevel_accepted hp rfl (tighter nofun)
  | comparison => exact infixLevel_accepted hp rfl (tighter nofun)
  | sum => exact infixLevel_accepted hp rfl (tighter nofun)
  | product => exact infixLevel_accepted hp rfl (tighter nofun)
  | power => exact infixLevel_accepted hp rfl (tighter nofun)

end Rules

/-! ## The recursion -/

variable {constant? : Expr → Option Value}

theorem accepted_of_recursion :
    (∀ l s, Yields (readSpan constant? l s) fun _ => Accepted l s.chars) ∧
      ∀ s base, Yields (followSpan constant? base s) fun _ => ∀ offset, Operators .operator offset s.chars [] := by
  refine span_induction (fun s levels walks base => ?_) fun l s levels walks tighter => ?_
  · rw [followSpan_eq]
    refine yields_ite (fun h => yields_pure fun offset => ?_) fun h => yields_bind fun (e, rest) he x hx offset => ?_
    · rw [h]
      exact .done
    · obtain ⟨hr, inside⟩ := traversal_rest base s _ he
      exact .traversal hr (walks rest inside e x hx _)
  · rw [readSpan_eq]
    exact yields_ite (fun _ => yields_failure) fun _ =>
      rule_accepted levels (fun e t ht => walks t ht e) l tighter

/-- The operators of a text that is something at a level. -/
theorem reading_operators {l : Level} {cs : List Char} {e : Expr} (h : reading constant? l cs = some e) :
    Accepted l cs :=
  accepted_of_recursion.1 l ⟨0, cs⟩ e h

end Groq.Query
