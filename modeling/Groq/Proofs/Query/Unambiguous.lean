/-
  Groq.Proofs.Query.Unambiguous — a text is split at a level in one way at most.

  Where a split succeeds, its operator is the last of its level in the text (the first, at the level
  of powers), read from the left; so two splits that succeed are one. Tighter levels accept no text
  with such an operator. The order in which the split points are tried makes no difference
  (`grammar_unambiguous`).
-/

import Groq.Proofs.Query.Memory
import Groq.Proofs.Query.Nesting

namespace Groq.Query

/-! ## Split points -/

/-- A place at which a level may split a span: a pipe, or an operator of an infix level. -/
inductive SplitPoint where
  | pipe (p : Place)
  | operator (r : InfixRule) (p : Place) (found : Found)

namespace SplitPoint

def offset : SplitPoint → Nat
  | pipe p => p.offset
  | operator _ p _ => p.offset

variable {m : Type → Type} [Monad m]

/-- Parse both sides of a split point, each at the level it has to be of. -/
def attempt (parse : Parse m) (walk : Follow m) (l : Level) (s : Span) : SplitPoint → OptionT m Expr
  | pipe p => do
    let base ← parse .pipe (s.slice 0 p.offset)
    pipeTarget parse walk base (s.tail (p.offset + 1))
  | operator r p found => do
    let right ← parse (r.rightLevel l) (s.tail (p.offset + found.length))
    let left ← parse (r.leftLevel l) (s.slice 0 p.offset)
    return found.connective.apply left right

end SplitPoint

/-- The split points of a level among the places of a surface, in the order in which they are tried. -/
def Level.splitPoints (l : Level) (places : List Place) : List SplitPoint :=
  match l.infix? with
  | some r => (r.candidates places).map fun c => .operator r c.1 c.2
  | none => if l = .pipe then (places.filter isPipe).reverse.map .pipe else []

section Rule

variable {m : Type → Type} [Monad m]

theorem firstSuccess_map {α β γ : Type} (f : β → OptionT m γ) (g : α → β) (items : List α) :
    firstSuccess f (items.map g) = firstSuccess (fun a => f (g a)) items := by
  induction items with
  | nil => rfl
  | cons a rest ih => exact congrArg (f (g a) <|> ·) ih

theorem require_pure {α : Type} (a : α) : (require (some a) : OptionT m α) = pure a := rfl

/-- At the levels of pipes and infix operators the first split that succeeds is taken. -/
theorem rule_splits (parse : Parse m) (walk : Follow m) {l : Level} (sign : l ≠ .sign) (operand : l ≠ .operand)
    (s : Span) : rule parse walk l s = require (surface? s.chars) >>= fun places =>
      firstSuccess (SplitPoint.attempt parse walk l s) (l.splitPoints places) <|> parse l.tighter s := by
  cases l with
  | sign => exact absurd rfl sign
  | operand => exact absurd rfl operand
  | pipe => simp only [rule, pipeLevel, Level.splitPoints, Level.infix?, if_pos, firstSuccess_map]; rfl
  | or => simp only [rule, infixLevel, Level.splitPoints, Level.infix?, firstSuccess_map]; rfl
  | and => simp only [rule, infixLevel, Level.splitPoints, Level.infix?, firstSuccess_map]; rfl
  | comparison => simp only [rule, infixLevel, Level.splitPoints, Level.infix?, firstSuccess_map]; rfl
  | sum => simp only [rule, infixLevel, Level.splitPoints, Level.infix?, firstSuccess_map]; rfl
  | product => simp only [rule, infixLevel, Level.splitPoints, Level.infix?, firstSuccess_map]; rfl
  | power => simp only [rule, infixLevel, Level.splitPoints, Level.infix?, firstSuccess_map]; rfl

/-- A level without split points passes the span on. -/
theorem rule_unsplit [LawfulMonad m] (parse : Parse m) (walk : Follow m) {l : Level} (sign : l ≠ .sign)
    (operand : l ≠ .operand) {s : Span} {places : List Place} (h : surface? s.chars = some places)
    (none : l.splitPoints places = []) : rule parse walk l s = parse l.tighter s := by
  rw [rule_splits parse walk sign operand, h]
  refine OptionT.ext ?_
  simp [require, none, firstSuccess, OptionT.run_bind]

end Rule

/-! ## Lists -/

section Lists

variable {α β : Type}

/-- The last element with a property is the last however the list is divided. -/
theorem eq_of_last {P : α → Prop} {xs ys xs' ys' : List α} {x x' : α} (h : xs ++ x :: ys = xs' ++ x' :: ys')
    (hx : P x) (hx' : P x') (hys : ∀ y ∈ ys, ¬ P y) (hys' : ∀ y ∈ ys', ¬ P y) : x = x' := by
  rcases List.append_eq_append_iff.mp h with ⟨as, -, h⟩ | ⟨as, -, h⟩
  · rcases as with _ | ⟨a, as⟩
    · exact (List.cons.inj h).1
    · have hmem : x' ∈ ys := by
        rw [(List.cons.inj h).2]
        simp
      exact absurd hx' (hys x' hmem)
  · rcases as with _ | ⟨a, as⟩
    · exact (List.cons.inj h).1.symm
    · have hmem : x ∈ ys' := by
        rw [(List.cons.inj h).2]
        simp
      exact absurd hx (hys' x hmem)

theorem eq_of_first {P : α → Prop} {xs ys xs' ys' : List α} {x x' : α} (h : xs ++ x :: ys = xs' ++ x' :: ys')
    (hx : P x) (hx' : P x') (hxs : ∀ y ∈ xs, ¬ P y) (hxs' : ∀ y ∈ xs', ¬ P y) : x = x' := by
  have reversed : ys.reverse ++ x :: xs.reverse = ys'.reverse ++ x' :: xs'.reverse := by
    simpa using congrArg List.reverse h
  refine eq_of_last reversed hx hx' (fun y hy => ?_) fun y hy => ?_
  · exact hxs y (List.mem_reverse.mp hy)
  · exact hxs' y (List.mem_reverse.mp hy)

/-- Where all successes are the same, the first is any of them. -/
theorem firstSuccess_eq_some {f : α → OptionT Id β} {items : List α}
    (agree : ∀ a ∈ items, ∀ b ∈ items, ∀ x y, (f a).run.run = some x → (f b).run.run = some y → x = y) {e : β} :
    (firstSuccess f items).run.run = some e ↔ ∃ a ∈ items, (f a).run.run = some e := by
  constructor
  · exact fun h => yields_firstSuccess (P := fun e => ∃ a ∈ items, (f a).run.run = some e)
      (fun a ha x hx => ⟨a, ha, hx⟩) e h
  · rintro ⟨a, ha, he⟩
    induction items with
    | nil => cases ha
    | cons b rest ih =>
      show ((f b) <|> firstSuccess f rest).run.run = some e
      rw [run_orElse]
      rcases hb : (f b).run.run with _ | x
      · rw [Option.none_or]
        rcases List.mem_cons.mp ha with rfl | ha
        · exact absurd (hb.symm.trans he) nofun
        · refine ih (fun c hc d hd => ?_) ha
          exact agree c (List.mem_cons_of_mem _ hc) d (List.mem_cons_of_mem _ hd)
      · rw [Option.some_or]
        rw [agree b List.mem_cons_self a ha x e hb he]

end Lists

/-! ## Successful splits -/

theorem offset_of_splitPoint {l : Level} {places : List Place} (sorted : places.Pairwise fun p q => p.offset < q.offset) :
    (l.splitPoints places).Pairwise fun a b => a.offset ≠ b.offset := by
  have distinct : places.Pairwise fun p q => p.offset ≠ q.offset := sorted.imp fun h => Nat.ne_of_lt h
  unfold Level.splitPoints
  split
  · rename_i r hr
    refine List.pairwise_map.mpr ?_
    have found : (places.filterMap fun p => (r.find? p).map (p, ·)).Pairwise fun a b => a.1.offset ≠ b.1.offset := by
      refine List.pairwise_filterMap.mpr (distinct.imp fun {p q} h a ha b hb => ?_)
      obtain ⟨f, -, rfl⟩ := Option.map_eq_some_iff.mp ha
      obtain ⟨g, -, rfl⟩ := Option.map_eq_some_iff.mp hb
      exact h
    unfold InfixRule.candidates
    dsimp only
    split
    · exact found
    · exact List.pairwise_reverse.mpr (found.imp fun h => h.symm)
  · split
    · refine List.pairwise_map.mpr (List.pairwise_reverse.mpr ((distinct.filter _).imp fun h => ?_))
      exact h.symm
    · exact List.Pairwise.nil

section Splits

variable {constant? : Expr → Option Value} {l : Level} {s : Span} {places : List Place}

theorem level_ne_of_fits {ops : List (Nat × Operator)} (hl : l ≠ .operand) (h : Fits l.tighter ops) :
    ∀ o ∈ ops, o.2.level ≠ l := by
  intro o ho e
  have hle := h.rank_le o ho
  have hlt := Level.rank_tighter hl
  rw [e] at hle
  omega

/-- Only powers associate to the right; elsewhere the right side is of a tighter level. -/
theorem leftLevel_power {r : InfixRule} (hr : Level.power.infix? = some r) : r.leftLevel .power = .operand := by
  cases hr
  rfl

theorem rightLevel_tighter {r : InfixRule} (hr : l.infix? = some r) (hl : l ≠ .power) : r.rightLevel l = l.tighter := by
  cases l <;> simp only [Level.infix?, Option.some.injEq, reduceCtorEq] at hr
  case power => exact absurd rfl hl
  all_goals subst hr
  all_goals rfl

theorem mem_splitPoints {a : SplitPoint} (ha : a ∈ l.splitPoints places) :
    (∃ p, a = .pipe p ∧ l = .pipe ∧ p ∈ places ∧ isPipe p = true) ∨
    ∃ r p found, a = .operator r p found ∧ l.infix? = some r ∧ p ∈ places ∧ r.find? p = some found := by
  unfold Level.splitPoints at ha
  split at ha
  · rename_i r hr
    obtain ⟨c, hc, rfl⟩ := List.mem_map.mp ha
    exact .inr ⟨r, c.1, c.2, rfl, hr, mem_candidates hc⟩
  · split at ha
    · obtain ⟨p, hp, rfl⟩ := List.mem_map.mp ha
      exact .inl ⟨p, rfl, ‹_›, List.mem_filter.mp (List.mem_reverse.mp hp)⟩
    · cases ha

/-- The operator of a split that succeeds stands between those of its two sides. On one side of it
    there are only tighter ones. -/
theorem operators_of_split (h : surface? s.chars = some places) {a : SplitPoint} (ha : a ∈ l.splitPoints places)
    {e : Expr} (he : (a.attempt (readSpan constant?) (followSpan constant?) l s).run.run = some e) :
    ∃ left op right, Operators .operand 0 s.chars (left ++ (a.offset, op) :: right) ∧ op.level = l ∧
      if l = .power then ∀ o ∈ left, o.2.level ≠ l else ∀ o ∈ right, o.2.level ≠ l := by
  rcases mem_splitPoints ha with ⟨p, rfl, rfl, hp, hpipe⟩ | ⟨r, p, found, rfl, hr, hp, hfound⟩
  · simp only [SplitPoint.attempt, run_bind, Option.bind_eq_some_iff] at he
    obtain ⟨base, hbase, he⟩ := he
    obtain ⟨ops, ho, -⟩ := reading_operators hbase 0
    have target := pipeTarget_accepted (s.within_tail (p.offset + 1)) base
      (fun e t _ => accepted_of_recursion.2 t e) e he
    refine ⟨ops, .pipe, [], ?_, rfl, ?_⟩
    · have joined := Operators.join h hp (pipe_operator hpipe) ho (target _)
      rwa [Nat.zero_add] at joined
    · rw [if_neg (by decide)]
      exact nofun
  · simp only [SplitPoint.attempt, run_bind, Option.bind_eq_some_iff] at he
    obtain ⟨right, hright, left, hleft, -⟩ := he
    obtain ⟨ho, hlevel⟩ := find_operator hr hfound
    obtain ⟨opsl, hol, hfl⟩ := reading_operators hleft 0
    obtain ⟨opsr, hor, hfr⟩ := reading_operators hright _
    refine ⟨opsl, .connective found.connective, opsr, ?_, hlevel, ?_⟩
    · have joined := Operators.join h hp ho hol hor
      rwa [Nat.zero_add] at joined
    · split
      · rename_i hl
        subst hl
        rw [leftLevel_power hr] at hfl
        exact level_ne_of_fits nofun hfl
      · rename_i hl
        rw [rightLevel_tighter hr hl] at hfr
        refine level_ne_of_fits ?_ hfr
        rintro rfl
        cases hr

/-- Two splits that succeed are at one place. -/
theorem offset_unique (h : surface? s.chars = some places) {a b : SplitPoint} (ha : a ∈ l.splitPoints places)
    (hb : b ∈ l.splitPoints places) {x y : Expr}
    (hx : (a.attempt (readSpan constant?) (followSpan constant?) l s).run.run = some x)
    (hy : (b.attempt (readSpan constant?) (followSpan constant?) l s).run.run = some y) : a.offset = b.offset := by
  obtain ⟨left, op, right, ho, hop, hside⟩ := operators_of_split h ha hx
  obtain ⟨left', op', right', ho', hop', hside'⟩ := operators_of_split h hb hy
  have same := ho.unique ho'
  by_cases hl : l = .power
  · rw [if_pos hl] at hside hside'
    exact congrArg Prod.fst (eq_of_first same hop hop' hside hside')
  · rw [if_neg hl] at hside hside'
    exact congrArg Prod.fst (eq_of_last same hop hop' hside hside')

/-- A text that can be split at a level is nothing at a tighter one. -/
theorem reading_tighter_of_split (h : surface? s.chars = some places) {a : SplitPoint} (ha : a ∈ l.splitPoints places)
    {e : Expr} (he : (a.attempt (readSpan constant?) (followSpan constant?) l s).run.run = some e)
    {l' : Level} (hl : l'.rank < l.rank) : reading constant? l' s.chars = none := by
  obtain ⟨left, op, right, ho, hop, -⟩ := operators_of_split h ha he
  rcases hr : reading constant? l' s.chars with _ | e'
  · rfl
  · obtain ⟨ops, ho', hf⟩ := reading_operators hr 0
    have hle := hf.rank_le (a.offset, op) (by rw [ho'.unique ho]; simp)
    rw [← hop] at hl
    exact absurd hle (by show ¬ op.level.rank ≤ _; omega)

end Splits

section Order

variable (constant? : Expr → Option Value) (l : Level) {s : Span} {places : List Place}

/-- No two split points succeed. -/
theorem splits_pairwise (h : surface? s.chars = some places) : (l.splitPoints places).Pairwise fun a b =>
    ∀ x y, (a.attempt (readSpan constant?) (followSpan constant?) l s).run.run = some x →
      (b.attempt (readSpan constant?) (followSpan constant?) l s).run.run ≠ some y := by
  refine (offset_of_splitPoint (surfaceFrom_sorted h)).imp_of_mem fun ha hb apart x y hx hy => ?_
  exact apart (offset_unique h ha hb hx hy)

theorem splits_agree (h : surface? s.chars = some places) : ∀ a ∈ l.splitPoints places, ∀ b ∈ l.splitPoints places,
    ∀ x y, (a.attempt (readSpan constant?) (followSpan constant?) l s).run.run = some x →
      (b.attempt (readSpan constant?) (followSpan constant?) l s).run.run = some y → x = y := by
  have pairwise := splits_pairwise constant? l h
  refine List.Pairwise.forall_of_forall_of_flip (fun a _ x y hx hy => ?_) (pairwise.imp fun h x y hx hy => ?_)
    (pairwise.imp fun h x y hx hy => ?_)
  · exact Option.some.inj (hx.symm.trans hy)
  · exact absurd hy (h x y hx)
  · exact absurd hx (h y x hy)

/-- An empty text has no split points and is nothing at any level. -/
theorem readSpan_splits (sign : l ≠ .sign) (operand : l ≠ .operand) (h : surface? s.chars = some places) :
    readSpan constant? l s =
      (firstSuccess (SplitPoint.attempt (readSpan constant?) (followSpan constant?) l s) (l.splitPoints places) <|>
        readSpan constant? l.tighter s) := by
  rw [readSpan_eq]
  by_cases hs : s.chars = []
  · rw [if_pos hs, readSpan_eq l.tighter, if_pos hs]
    rw [hs] at h
    cases h
    have none : l.splitPoints [] = [] := by cases l <;> rfl
    rw [none]
    rfl
  · rw [if_neg hs, rule_splits _ _ sign operand, h]
    rfl

/-- In every order the split points give what the level gives. -/
theorem splits_in_order (sign : l ≠ .sign) (operand : l ≠ .operand) (h : surface? s.chars = some places)
    {order : List SplitPoint} (perm : order.Perm (l.splitPoints places)) :
    (firstSuccess (SplitPoint.attempt (readSpan constant?) (followSpan constant?) l s) order <|>
      readSpan constant? l.tighter s) = readSpan constant? l s := by
  have agree := splits_agree constant? l h
  have same : firstSuccess (SplitPoint.attempt (readSpan constant?) (followSpan constant?) l s) order =
      firstSuccess (SplitPoint.attempt (readSpan constant?) (followSpan constant?) l s) (l.splitPoints places) := by
    refine OptionT.ext (Option.ext fun e => ?_)
    refine (firstSuccess_eq_some fun a ha b hb => ?_).trans ((exists_congr fun a => ?_).trans
      (firstSuccess_eq_some agree).symm)
    · exact agree a (perm.mem_iff.mp ha) b (perm.mem_iff.mp hb)
    · exact and_congr_left fun _ => perm.mem_iff
  rw [same, ← readSpan_splits constant? l sign operand h]

end Order

/-- A split under a bound is an attempt at the same split without one. -/
theorem attempts_splitPoint (constant? : Expr → Option Value) (depth : Nat) (l : Level) (s : Span) (a : SplitPoint) :
    (attempts (Memory.Sound constant? s)).Agree (a.attempt (readSpan constant?) (followSpan constant?) l s)
      (a.attempt (level constant? depth) (follow constant? depth) l s)
      (a.attempt (level constant? depth) (follow constant? depth) l s) := by
  obtain ⟨levels, follows⟩ := attempts_level constant? s depth
  cases a with
  | pipe p =>
    refine agree_bind (levels _ _ (s.within_slice _ _)) fun base _ => agree_pipeTarget base ?_ ?_
    · exact fun l t ht => levels l t (ht.trans_within (s.within_tail _)).1
    · exact fun e t ht => follows e t (ht.trans_within (s.within_tail _)).1
  | operator r p found =>
    refine agree_bind (levels _ _ (s.within_tail _)) fun right _ => ?_
    exact agree_bind (levels _ _ (s.within_slice _ _)) fun left _ => agree_pure _

/-! ## The grammar -/

/-- A level other than signs and operands tries its split points in order. At most one of them succeeds;
    where one does, no tighter level accepts the span; and whatever the order in which they are
    tried, the tree is the same, also for a parser with a bound that it does not reach. -/
theorem grammar_unambiguous (limits : Limits) (l : Level) (sign : l ≠ .sign) (operand : l ≠ .operand) (s : Span)
    (places : List Place) (h : surface? s.chars = some places) :
    (∀ (m : Type → Type) [Monad m] [LawfulMonad m] (parse : Parse m) (walk : Follow m), rule parse walk l s =
      (firstSuccess (SplitPoint.attempt parse walk l s) (l.splitPoints places) <|> parse l.tighter s)) ∧
    ((l.splitPoints places).Pairwise fun a b =>
      ∀ x y, (a.attempt (readSpan (constant? limits)) (followSpan (constant? limits)) l s).run = some x →
        (b.attempt (readSpan (constant? limits)) (followSpan (constant? limits)) l s).run ≠ some y) ∧
    (∀ a ∈ l.splitPoints places, ∀ x,
      (a.attempt (readSpan (constant? limits)) (followSpan (constant? limits)) l s).run = some x →
        ∀ l' : Level, l'.rank < l.rank → (readSpan (constant? limits) l' s).run = none) ∧
    ∀ order : List SplitPoint, order.Perm (l.splitPoints places) →
      (firstSuccess (SplitPoint.attempt (readSpan (constant? limits)) (followSpan (constant? limits)) l s) order <|>
        readSpan (constant? limits) l.tighter s) = readSpan (constant? limits) l s ∧
      ∀ depth r, (firstSuccess (SplitPoint.attempt (level (constant? limits) depth) (follow (constant? limits) depth) l s)
          order <|> level (constant? limits) depth l.tighter s : OptionT (Except Exhausted) Expr).run = .ok r →
        r = (readSpan (constant? limits) l s).run := by
  refine ⟨fun m _ _ parse walk => ?_, splits_pairwise _ l h,
    fun a ha x hx l' hl => reading_tighter_of_split h ha hx hl, fun order perm => ?_⟩
  · rw [rule_splits parse walk sign operand, h, require_pure]
    exact pure_bind _ _
  have inOrder := splits_in_order (constant? limits) l sign operand h perm
  refine ⟨inOrder, fun depth r hr => ?_⟩
  have levels := (attempts_level (constant? limits) s depth).1
  have agree := agree_orElse (agree_firstSuccess fun a (_ : a ∈ order) => attempts_splitPoint (constant? limits) depth l s a)
    (levels l.tighter s (.refl s))
  rw [inOrder] at agree
  exact agree.1 r hr

/-- Of the three minus signs the first two are spurious: on their right stands a difference. Tried from the first on
    they give the tree that splits at the last. -/
theorem grammar_unambiguous_difference :
    let s : Span := ⟨0, "a--b-c".toList⟩
    let places : List Place := [⟨0, none, "a--b-c".toList⟩, ⟨1, some 'a', "--b-c".toList⟩, ⟨2, some '-', "-b-c".toList⟩,
      ⟨3, some '-', "b-c".toList⟩, ⟨4, some 'b', "-c".toList⟩, ⟨5, some '-', "c".toList⟩]
    surface? s.chars = some places ∧ (Level.sum.splitPoints places).map SplitPoint.offset = [4, 2, 1] ∧
      (firstSuccess (SplitPoint.attempt (readSpan (constant? {})) (followSpan (constant? {})) .sum s)
          (Level.sum.splitPoints places).reverse <|> readSpan (constant? {}) .product s) =
        readSpan (constant? {}) .sum s ∧
      (readSpan (constant? {}) .sum s).run =
        some (.binary .subtract (.binary .subtract (.ownField "a") (.neg (.ownField "b"))) (.ownField "c")) := by
  intro s places
  have surface : surface? s.chars = some places := rfl
  obtain ⟨inOrder, bounded⟩ :=
    (grammar_unambiguous {} .sum nofun nofun s places surface).2.2.2 _ (List.reverse_perm _)
  exact ⟨surface, rfl, inOrder, (bounded 60 _ rfl).symm⟩

end Groq.Query
