/-
  Groq.Proofs.Query.Simulation — the rules of the grammar under two monads at once.

  The rules are functions of the parsers they are given and run in any monad. A `Simulation` says,
  in a way that `pure` and `bind` keep, that two computations are attempts at one value; it need not
  say that either of them succeeds. If the parsers given to a rule are attempts at what plain
  parsers return, the rule is an attempt at what it returns on those (`agree_rule`). The parsers
  are only asked about stretches of the span, and about the span itself at tighter levels only.
-/

import Groq.Proofs.Query.Rest

namespace Groq.Query

/-! ## Operators -/

theorem mem_candidates {r : InfixRule} {places : List Place} {c : Place × Found} (h : c ∈ r.candidates places) :
    c.1 ∈ places ∧ r.find? c.1 = some c.2 := by
  have hm : c ∈ places.filterMap fun p => (r.find? p).map (p, ·) := by
    unfold InfixRule.candidates at h
    dsimp only at h
    split at h
    · exact h
    · exact List.mem_reverse.mp h
  obtain ⟨p, hp, he⟩ := List.mem_filterMap.mp hm
  obtain ⟨f, hf, rfl⟩ := Option.map_eq_some_iff.mp he
  exact ⟨hp, hf⟩

theorem find_length {l : Level} {r : InfixRule} (hr : l.infix? = some r) {p : Place} {f : Found}
    (h : r.find? p = some f) : 0 < f.length := by
  cases l <;> simp only [Level.infix?, Option.some.injEq, reduceCtorEq] at hr
  all_goals subst hr
  all_goals simp only [orAt?, andAt?, comparisonAt?, sumAt?, productAt?, powerAt?] at h
  all_goals grind

/-! ## Attempts at a value -/

/-- What it means for two computations to be attempts at a value. -/
structure Simulation (m n : Type → Type) [Monad m] [Monad n] where
  Rel : {α : Type} → α → m α → n α → Prop
  pure : ∀ {α : Type} (a : α), Rel a (Pure.pure a) (Pure.pure a)
  bind : ∀ {α β : Type} {a : α} {b : β} {x : m α} {y : n α} {f : α → m β} {g : α → n β},
    Rel a x y → Rel b (f a) (g a) → Rel b (x >>= f) (y >>= g)

variable {m n : Type → Type} [Monad m] [Monad n] (S : Simulation m n)

def Simulation.Agree {α : Type} (v : OptionT Id α) (x : OptionT m α) (y : OptionT n α) : Prop :=
  S.Rel v.run.run x.run y.run

variable {S} {α β : Type}

/-! ## Steps -/

theorem agree_pure (a : α) : S.Agree (pure a) (pure a) (pure a) := S.pure (some a)

theorem agree_failure : S.Agree (failure : OptionT Id α) failure failure := S.pure none

theorem agree_require (a : Option α) : S.Agree (require a) (require a) (require a) := S.pure a

theorem agree_bind {v : OptionT Id α} {x : OptionT m α} {y : OptionT n α} {f : α → OptionT Id β}
    {g : α → OptionT m β} {h : α → OptionT n β} (first : S.Agree v x y)
    (next : ∀ a, v.run.run = some a → S.Agree (f a) (g a) (h a)) : S.Agree (v >>= f) (x >>= g) (y >>= h) := by
  unfold Simulation.Agree
  rw [OptionT.run_bind, OptionT.run_bind, OptionT.run_bind]
  refine S.bind first ?_
  rcases hv : v.run.run with _ | a
  · simp only [Option.elimM, Id.run_bind, hv, Option.elim]
    exact S.pure none
  · simp only [Option.elimM, Id.run_bind, hv, Option.elim]
    exact next a hv

theorem agree_orElse {v v' : OptionT Id α} {x x' : OptionT m α} {y y' : OptionT n α}
    (first : S.Agree v x y) (second : S.Agree v' x' y') : S.Agree (v <|> v') (x <|> x') (y <|> y') := by
  unfold Simulation.Agree
  rw [OptionT.run_orElse, OptionT.run_orElse, OptionT.run_orElse]
  refine S.bind first ?_
  rcases hv : v.run.run with _ | a
  · simp only [Option.elimM, Id.run_bind, hv, Option.elim]
    exact second
  · simp only [Option.elimM, Id.run_bind, hv, Option.elim]
    exact S.pure (some a)

theorem agree_ite {p : Prop} [Decidable p] {v v' : OptionT Id α} {x x' : OptionT m α} {y y' : OptionT n α}
    (yes : S.Agree v x y) (no : S.Agree v' x' y') :
    S.Agree (if p then v else v') (if p then x else x') (if p then y else y') := by
  split
  · exact yes
  · exact no

theorem agree_firstSuccess {f : α → OptionT Id β} {g : α → OptionT m β} {h : α → OptionT n β} {items : List α}
    (each : ∀ a ∈ items, S.Agree (f a) (g a) (h a)) :
    S.Agree (firstSuccess f items) (firstSuccess g items) (firstSuccess h items) := by
  induction items with
  | nil => exact agree_failure
  | cons a rest ih =>
    exact agree_orElse (each a List.mem_cons_self) (ih fun a ha => each a (List.mem_cons_of_mem _ ha))

section Choices

variable {const₀ const₁ const₂ : Expr → Option Value}
variable {parse₀ : Parse Id} {parse₁ : Parse m} {parse₂ : Parse n} {s : Span}

theorem agree_sliceBound
    (same : ∀ l t e, t.Within s → (parse₀ l t).run.run = some e → const₁ e = const₀ e ∧ const₂ e = const₀ e)
    (hp : ∀ l t, t.Within s → S.Agree (parse₀ l t) (parse₁ l t) (parse₂ l t)) :
    S.Agree (sliceBound const₀ parse₀ s) (sliceBound const₁ parse₁ s) (sliceBound const₂ parse₂ s) := by
  refine agree_bind (hp _ _ (.refl s)) fun e he => ?_
  obtain ⟨h₁, h₂⟩ := same _ _ e (.refl s) he
  rw [h₁, h₂]
  exact agree_require _

theorem agree_bracket (base : Expr)
    (same : ∀ l t e, t.Within s → (parse₀ l t).run.run = some e → const₁ e = const₀ e ∧ const₂ e = const₀ e)
    (hp : ∀ l t, t.Within s → S.Agree (parse₀ l t) (parse₁ l t) (parse₂ l t)) :
    S.Agree (bracket const₀ parse₀ base s) (bracket const₁ parse₁ base s) (bracket const₂ parse₂ base s) := by
  have bound (t : Span) (ht : t.Within s) :
      S.Agree (sliceBound const₀ parse₀ t) (sliceBound const₁ parse₁ t) (sliceBound const₂ parse₂ t) :=
    agree_sliceBound (fun l u e hu => same l u e (hu.trans ht)) fun l u hu => hp l u (hu.trans ht)
  unfold bracket
  split
  · exact agree_pure _
  · split
    · refine agree_bind (bound _ (s.within_slice _ _)) fun left _ => ?_
      exact agree_bind (bound _ (s.within_tail _)) fun right _ => agree_pure _
    · refine agree_bind (hp _ _ (.refl s)) fun inner hinner => ?_
      obtain ⟨h₁, h₂⟩ := same _ _ inner (.refl s) hinner
      rw [h₁, h₂]
      split
      · exact agree_bind (agree_require _) fun index _ => agree_pure _
      · exact agree_pure _
      · exact agree_pure _

theorem agree_infixLevel {l : Level} {r : InfixRule} (hr : l.infix? = some r)
    (hp : ∀ l t, t.Inside s → S.Agree (parse₀ l t) (parse₁ l t) (parse₂ l t))
    (tighter : S.Agree (parse₀ l.tighter s) (parse₁ l.tighter s) (parse₂ l.tighter s)) :
    S.Agree (infixLevel parse₀ l r s) (infixLevel parse₁ l r s) (infixLevel parse₂ l r s) := by
  refine agree_bind (agree_require _) fun places h => agree_orElse (agree_firstSuccess fun (p, found) hmem => ?_) tighter
  obtain ⟨hplace, hfound⟩ := mem_candidates hmem
  have hlt : p.offset < s.chars.length := (surface_place h hplace).1
  have hne : s.chars ≠ [] := List.length_pos_iff.mp (by omega)
  have hpos : 0 < found.length := find_length hr hfound
  refine agree_bind (hp _ _ (Span.inside_tail hne (by omega))) fun right _ => ?_
  exact agree_bind (hp _ _ (Span.inside_slice (by omega))) fun left _ => agree_pure _

end Choices

variable [LawfulMonad m] [LawfulMonad n]

theorem agree_map {v : OptionT Id α} {x : OptionT m α} {y : OptionT n α} (f : α → β)
    (h : S.Agree v x y) : S.Agree (f <$> v) (f <$> x) (f <$> y) := by
  simp only [← bind_pure_comp]
  exact agree_bind h fun a _ => agree_pure (f a)

theorem agree_mapM {f : α → OptionT Id β} {g : α → OptionT m β} {h : α → OptionT n β} {items : List α}
    (each : ∀ a ∈ items, S.Agree (f a) (g a) (h a)) : S.Agree (items.mapM f) (items.mapM g) (items.mapM h) := by
  induction items with
  | nil => exact agree_pure []
  | cons a rest ih =>
    simp only [List.mapM_cons]
    refine agree_bind (each a List.mem_cons_self) fun b _ => ?_
    refine agree_bind (ih fun a ha => each a (List.mem_cons_of_mem _ ha)) fun bs _ => ?_
    exact agree_pure (b :: bs)

/-! ## Lists -/

section Lists

variable {parse₀ : Parse Id} {parse₁ : Parse m} {parse₂ : Parse n} {s : Span}

theorem agree_argument (sortKeys : Bool)
    (hp : ∀ l t, t.Within s → S.Agree (parse₀ l t) (parse₁ l t) (parse₂ l t)) :
    S.Agree (argument parse₀ sortKeys s) (argument parse₁ sortKeys s) (argument parse₂ sortKeys s) := by
  unfold argument
  split
  · exact agree_map Expr.desc (hp _ _ (s.within_slice _ _))
  · split
    · exact agree_map Expr.asc (hp _ _ (s.within_slice _ _))
    · exact hp _ _ (.refl s)

theorem agree_arguments (sortKeys : Bool)
    (hp : ∀ l t, t.Within s → S.Agree (parse₀ l t) (parse₁ l t) (parse₂ l t)) :
    S.Agree (arguments parse₀ sortKeys s) (arguments parse₁ sortKeys s) (arguments parse₂ sortKeys s) := by
  unfold arguments
  split
  · exact agree_pure []
  · refine agree_bind (agree_require _) fun pieces h => agree_mapM fun t ht => ?_
    exact agree_argument sortKeys fun l u hu => hp l u (hu.trans (Span.within_pieces h t ht))

theorem agree_arrayElements (hp : ∀ l t, t.Within s → S.Agree (parse₀ l t) (parse₁ l t) (parse₂ l t)) :
    S.Agree (arrayElements parse₀ s) (arrayElements parse₁ s) (arrayElements parse₂ s) := by
  refine agree_bind (agree_require _) fun items h => agree_mapM fun t ht => ?_
  have hw := Span.within_items h t ht
  unfold arrayElement
  split
  · exact agree_map Element.splat (hp _ _ ((t.within_tail 3).trans hw))
  · exact agree_map Element.item (hp _ _ hw)

theorem agree_objectAttribute (hp : ∀ l t, t.Within s → S.Agree (parse₀ l t) (parse₁ l t) (parse₂ l t)) :
    S.Agree (objectAttribute parse₀ s) (objectAttribute parse₁ s) (objectAttribute parse₂ s) := by
  unfold objectAttribute
  split
  · simp only []
    split
    · exact agree_pure _
    · exact agree_map Attribute.splat (hp _ _ (s.within_tail 3))
  · split
    · rename_i colon _
      simp only []
      split
      · refine agree_bind (agree_require _) fun name _ => ?_
        exact agree_map (Attribute.named name) (hp _ _ (s.within_tail (colon + 1)))
      · exact agree_failure
    · refine agree_bind (hp _ _ (.refl s)) fun value _ => ?_
      exact agree_bind (agree_require _) fun name _ => agree_pure _

theorem agree_objectBody (hp : ∀ l t, t.Within s → S.Agree (parse₀ l t) (parse₁ l t) (parse₂ l t)) :
    S.Agree (objectBody parse₀ s) (objectBody parse₁ s) (objectBody parse₂ s) := by
  refine agree_bind (agree_require _) fun items h => ?_
  refine agree_bind (agree_mapM fun t ht => ?_) fun attributes _ => agree_pure _
  exact agree_objectAttribute fun l u hu => hp l u (hu.trans (Span.within_items h t ht))

end Lists

/-! ## Traversals and operands -/

section Operands

variable {const₀ const₁ const₂ : Expr → Option Value}
variable {parse₀ : Parse Id} {parse₁ : Parse m} {parse₂ : Parse n} {s : Span}

/-- Constants need to be the same only for what the plain parsers return. -/
theorem agree_traversal (base : Expr)
    (same : ∀ l t e, t.Inside s → (parse₀ l t).run.run = some e → const₁ e = const₀ e ∧ const₂ e = const₀ e)
    (hp : ∀ l t, t.Inside s → S.Agree (parse₀ l t) (parse₁ l t) (parse₂ l t)) :
    S.Agree (traversal const₀ parse₀ base s) (traversal const₁ parse₁ base s) (traversal const₂ parse₂ base s) := by
  unfold traversal
  split
  · simp only []
    split
    · exact agree_failure
    · exact agree_pure _
  · simp only []
    split
    · exact agree_pure _
    · exact agree_pure _
  · refine agree_bind (agree_require _) fun (inside, rest) h => ?_
    have shorter := (Span.inside_enclosed h).1
    refine agree_bind (agree_bracket base (fun l t e ht => ?_) fun l t ht => ?_) fun e _ => agree_pure _
    · exact same l t e (ht.trans_inside shorter)
    · exact hp l t (ht.trans_inside shorter)
  · refine agree_bind (agree_require _) fun (inside, rest) h => ?_
    refine agree_bind (agree_objectBody fun l t ht => ?_) fun e _ => agree_pure _
    exact hp l t (ht.trans_inside (Span.inside_enclosed h).1)
  · exact agree_failure

theorem agree_callOperand (library name : List Char)
    (hp : ∀ l t, t.Inside s → S.Agree (parse₀ l t) (parse₁ l t) (parse₂ l t)) :
    S.Agree (callOperand parse₀ library name s) (callOperand parse₁ library name s)
      (callOperand parse₂ library name s) := by
  refine agree_bind (agree_require _) fun (inside, rest) h => ?_
  refine agree_bind (agree_arguments false fun l t ht => ?_) fun args _ => agree_pure _
  exact hp l t (ht.trans_inside (Span.inside_enclosed h).1)

theorem agree_namedOperand (hp : ∀ l t, t.Inside s → S.Agree (parse₀ l t) (parse₁ l t) (parse₂ l t)) :
    S.Agree (namedOperand parse₀ s) (namedOperand parse₁ s) (namedOperand parse₂ s) := by
  have within (first : Nat) : ∀ l t, t.Inside (s.tail first) → S.Agree (parse₀ l t) (parse₁ l t) (parse₂ l t) :=
    fun l t ht => hp l t (ht.trans_within (s.within_tail first))
  unfold namedOperand
  simp only []
  split
  · split
    · exact agree_failure
    · refine agree_callOperand _ _ fun l t ht => within _ l t (ht.trans_within (Span.within_tail _ _))
  · exact agree_callOperand _ _ (within _)
  · exact agree_pure _

theorem agree_operand (hp : ∀ l t, t.Inside s → S.Agree (parse₀ l t) (parse₁ l t) (parse₂ l t)) :
    S.Agree (operand parse₀ s) (operand parse₁ s) (operand parse₂ s) := by
  have inside {i r : Span} (h : s.enclosed? = some (i, r)) :
      ∀ l t, t.Within i → S.Agree (parse₀ l t) (parse₁ l t) (parse₂ l t) :=
    fun l t ht => hp l t (ht.trans_inside (Span.inside_enclosed h).1)
  unfold operand
  rcases s.chars with _ | ⟨c, rest⟩
  · exact agree_failure
  dsimp only
  refine agree_ite (agree_bind (agree_require _) fun length _ => ?literal) (agree_ite ?number ?_)
  case literal => exact agree_bind (agree_require _) fun text _ => agree_pure _
  case number => exact agree_bind (agree_require _) fun (number, after) _ => agree_pure _
  refine agree_ite (agree_ite agree_failure (agree_pure _)) (agree_ite (agree_pure _) ?_)
  refine agree_ite (agree_pure _) (agree_ite (agree_pure _) ?_)
  refine agree_ite ?group (agree_ite ?array (agree_ite ?object (agree_ite ?name agree_failure)))
  case group =>
    refine agree_bind (agree_require _) fun (i, r) h => ?_
    exact agree_bind (inside h _ _ (.refl i)) fun e _ => agree_pure _
  case array =>
    refine agree_bind (agree_require _) fun (i, r) h => ?_
    exact agree_bind (agree_arrayElements (inside h)) fun e _ => agree_pure _
  case object =>
    refine agree_bind (agree_require _) fun (i, r) h => ?_
    exact agree_bind (agree_objectBody (inside h)) fun e _ => agree_pure _
  case name => exact agree_namedOperand hp

end Operands

/-! ## Levels -/

section Levels

variable {parse₀ : Parse Id} {parse₁ : Parse m} {parse₂ : Parse n}
variable {walk₀ : Follow Id} {walk₁ : Follow m} {walk₂ : Follow n} {s : Span}

theorem agree_pipeTarget (base : Expr) (hp : ∀ l t, t.Inside s → S.Agree (parse₀ l t) (parse₁ l t) (parse₂ l t))
    (hw : ∀ e t, t.Inside s → S.Agree (walk₀ e t) (walk₁ e t) (walk₂ e t)) :
    S.Agree (pipeTarget parse₀ walk₀ base s) (pipeTarget parse₁ walk₁ base s) (pipeTarget parse₂ walk₂ base s) := by
  unfold pipeTarget
  split
  · refine agree_bind (agree_require _) fun (i, r) h => ?_
    obtain ⟨hi, hr⟩ := Span.inside_enclosed h
    exact agree_bind (agree_objectBody fun l t ht => hp l t (ht.trans_inside hi)) fun e _ => hw _ _ hr
  · dsimp only
    refine agree_ite agree_failure (agree_bind (agree_require _) fun (i, r) h => ?_)
    obtain ⟨hi, hr⟩ := Span.inside_enclosed h
    refine agree_bind (agree_arguments true fun l t ht => ?_) fun args _ => ?_
    · exact hp l t ((ht.trans_inside hi).trans_within (s.within_tail _))
    · exact hw _ _ (hr.trans_within (s.within_tail _))

theorem agree_pipeLevel (hp : ∀ l t, t.Inside s → S.Agree (parse₀ l t) (parse₁ l t) (parse₂ l t))
    (tighter : S.Agree (parse₀ .or s) (parse₁ .or s) (parse₂ .or s))
    (hw : ∀ e t, t.Inside s → S.Agree (walk₀ e t) (walk₁ e t) (walk₂ e t)) :
    S.Agree (pipeLevel parse₀ walk₀ s) (pipeLevel parse₁ walk₁ s) (pipeLevel parse₂ walk₂ s) := by
  refine agree_bind (agree_require _) fun places h => agree_orElse (agree_firstSuccess fun p hmem => ?_) tighter
  have hlt := (surface_place h (List.mem_filter.mp (List.mem_reverse.mp hmem)).1).1
  refine agree_bind (hp _ _ (Span.inside_slice (by omega))) fun base _ => ?_
  have within := s.within_tail (p.offset + 1)
  exact agree_pipeTarget base (fun l t ht => hp l t (ht.trans_within within)) fun e t ht => hw e t (ht.trans_within within)

theorem agree_signLevel (hp : ∀ l t, t.Inside s → S.Agree (parse₀ l t) (parse₁ l t) (parse₂ l t))
    (tighter : S.Agree (parse₀ .power s) (parse₁ .power s) (parse₂ .power s)) :
    S.Agree (signLevel parse₀ s) (signLevel parse₁ s) (signLevel parse₂ s) := by
  unfold signLevel
  split
  · rename_i hs
    exact agree_orElse (agree_map _ (hp _ _ (Span.inside_tail (by simp [hs]) Nat.one_pos))) tighter
  · rename_i hs
    exact agree_orElse (agree_map _ (hp _ _ (Span.inside_tail (by simp [hs]) Nat.one_pos))) tighter
  · rename_i hs
    exact agree_orElse (agree_map _ (hp _ _ (Span.inside_tail (by simp [hs]) Nat.one_pos))) tighter
  · exact tighter

theorem agree_operandLevel (hp : ∀ l t, t.Inside s → S.Agree (parse₀ l t) (parse₁ l t) (parse₂ l t))
    (hw : ∀ e t, t.Inside s → S.Agree (walk₀ e t) (walk₁ e t) (walk₂ e t)) :
    S.Agree (operandLevel parse₀ walk₀ s) (operandLevel parse₁ walk₁ s) (operandLevel parse₂ walk₂ s) := by
  unfold operandLevel
  split
  · rename_i hs
    exact agree_map _ (hp _ _ (Span.inside_tail (by simp [hs]) Nat.one_pos))
  · rename_i hs
    exact agree_map _ (hp _ _ (Span.inside_tail (by simp [hs]) Nat.one_pos))
  · exact agree_bind (agree_operand hp) fun (head, rest) h => hw _ _ (operand_rest s _ h).2

/-- A rule asks about shorter stretches, and about its own span at the next tighter level. -/
theorem agree_rule (l : Level) (hp : ∀ l t, t.Inside s → S.Agree (parse₀ l t) (parse₁ l t) (parse₂ l t))
    (tighter : l ≠ .operand → S.Agree (parse₀ l.tighter s) (parse₁ l.tighter s) (parse₂ l.tighter s))
    (hw : ∀ e t, t.Inside s → S.Agree (walk₀ e t) (walk₁ e t) (walk₂ e t)) :
    S.Agree (rule parse₀ walk₀ l s) (rule parse₁ walk₁ l s) (rule parse₂ walk₂ l s) := by
  cases l with
  | pipe => exact agree_pipeLevel hp (tighter nofun) hw
  | sign => exact agree_signLevel hp (tighter nofun)
  | operand => exact agree_operandLevel hp hw
  | or => exact agree_infixLevel rfl hp (tighter nofun)
  | and => exact agree_infixLevel rfl hp (tighter nofun)
  | comparison => exact agree_infixLevel rfl hp (tighter nofun)
  | sum => exact agree_infixLevel rfl hp (tighter nofun)
  | product => exact agree_infixLevel rfl hp (tighter nofun)
  | power => exact agree_infixLevel rfl hp (tighter nofun)

end Levels

end Groq.Query
