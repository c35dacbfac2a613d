/-
  Groq.Proofs.Query.Height — trees no higher than their texts.

  Every rule that puts nodes on top of what it parsed has taken at least as many characters for them:
  an operator, a sign, a pair of brackets, a mark or a name. `traversal` and `operand` leave some of
  their span over, so there the characters left count as well (`traversal_height`, `operand_height`).
  Proved: no tree is higher than the normal form of its query is long (`parse_height`). The bound on
  depth plays no part in this: it counts levels entered, not nodes.
-/

import Groq.Proofs.Expr.Shape
import Groq.Proofs.Query.Memory

namespace Groq.Query

theorem yields_mapM {α β : Type} {P : β → Prop} {f : α → OptionT Id β} {items : List α}
    (each : ∀ a ∈ items, Yields (f a) P) : Yields (items.mapM f) fun bs => ∀ b ∈ bs, P b := by
  induction items with
  | nil => exact yields_pure nofun
  | cons a rest ih =>
    simp only [List.mapM_cons]
    refine yields_bind fun b hb => yields_bind fun bs hbs => yields_pure ?_
    have first := each a List.mem_cons_self b hb
    have others := ih (fun a ha => each a (List.mem_cons_of_mem _ ha)) bs hbs
    exact List.forall_mem_cons.mpr ⟨first, others⟩

/-- Trees of at most a certain height. -/
abbrev NoHigher (n : Nat) (v : OptionT Id Expr) : Prop := Yields v fun e => e.height ≤ n

section Rules

variable {constant? : Expr → Option Value} {parse : Parse Id} {walk : Follow Id} {s : Span}

/-! ## Nodes -/

theorem noHigher_mono {n k : Nat} {v : OptionT Id Expr} (h : NoHigher n v) (le : n ≤ k) : NoHigher k v :=
  fun e he => Nat.le_trans (h e he) le

/-- One node on top of one part. -/
theorem height_over {e part : Expr} {n : Nat} (parts : e.parts = [part]) (h : part.height ≤ n) : e.height ≤ n + 1 := by
  refine Expr.height_le_of_parts fun p hp => ?_
  rw [parts] at hp
  rwa [List.mem_singleton.mp hp]

/-- One node on top of two parts. -/
theorem height_over_both {e left right : Expr} {n : Nat} (parts : e.parts = [left, right]) (hl : left.height ≤ n)
    (hr : right.height ≤ n) : e.height ≤ n + 1 := by
  refine Expr.height_le_of_parts fun p hp => ?_
  rw [parts] at hp
  rcases List.mem_cons.mp hp with rfl | hp
  · exact hl
  · rwa [List.mem_singleton.mp hp]

theorem height_leaf {e : Expr} (parts : e.parts = []) : e.height ≤ 1 :=
  Expr.height_le_of_parts (n := 0) (by simp [parts])

theorem height_negate {e : Expr} {n : Nat} (h : e.height ≤ n) : e.negate.height ≤ n + 1 := by
  unfold Expr.negate
  split
  · exact Nat.le_trans (height_leaf rfl) (Nat.succ_pos n)
  · exact height_over rfl h

theorem height_positive {e : Expr} {n : Nat} (h : e.height ≤ n) : e.positive.height ≤ n + 1 := by
  unfold Expr.positive
  split
  · exact Nat.le_trans (height_leaf rfl) (Nat.succ_pos n)
  · exact height_over rfl h

theorem height_elementAt (base : Expr) (index : Int) : (elementAt base index).height ≤ base.height + 2 := by
  unfold elementAt
  split
  · exact Nat.le_succ_of_le (height_over rfl (Nat.le_refl _))
  · exact height_over rfl (height_over rfl (Nat.le_refl _))

theorem height_connective (c : Connective) {left right : Expr} {n : Nat} (hl : left.height ≤ n) (hr : right.height ≤ n) :
    (c.apply left right).height ≤ n + 1 := by
  cases c with
  | or => exact height_over_both rfl hl hr
  | and => exact height_over_both rfl hl hr
  | binary op => exact height_over_both rfl hl hr

/-! ## Lists -/

theorem argument_height (sortKeys : Bool) (hp : ∀ l t, t.Within s → NoHigher t.chars.length (parse l t)) :
    NoHigher s.chars.length (argument parse sortKeys s) := by
  have marked (mark : String) (f : Expr → Expr) (parts : ∀ e, (f e).parts = [e]) (pos : 0 < mark.length)
      (suffix : mark.toList.isSuffixOf s.chars = true) :
      NoHigher s.chars.length (f <$> parse .pipe (s.slice 0 (s.chars.length - mark.length))) := by
    have shorter := (List.isSuffixOf_iff_suffix.mp suffix).length_le
    rw [String.length_toList] at shorter
    refine yields_map f fun e he => ?_
    have key := height_over (parts e) (hp _ _ (s.within_slice _ _) e he)
    simp only [Span.slice, List.drop_zero, Nat.sub_zero, List.length_take] at key
    omega
  unfold argument
  refine yields_ite (fun h => marked " desc " .desc (fun _ => rfl) (by decide) h.2) fun _ => ?_
  exact yields_ite (fun h => marked " asc " .asc (fun _ => rfl) (by decide) h.2) fun _ => hp _ _ (.refl s)

theorem arguments_height (sortKeys : Bool) (hp : ∀ l t, t.Within s → NoHigher t.chars.length (parse l t)) :
    Yields (arguments parse sortKeys s) fun args => ∀ e ∈ args, e.height ≤ s.chars.length := by
  unfold arguments
  refine yields_ite (fun _ => yields_pure nofun) fun _ => yields_bind fun pieces h => yields_mapM fun t ht => ?_
  have within := Span.within_pieces h t ht
  exact noHigher_mono (argument_height sortKeys fun l u hu => hp l u (hu.trans within)) within.length_le

theorem arrayElements_height (hp : ∀ l t, t.Within s → NoHigher t.chars.length (parse l t)) :
    Yields (arrayElements parse s) fun entries => ∀ entry ∈ entries, entry.value.height ≤ s.chars.length := by
  refine yields_bind fun items h => yields_mapM fun t ht => ?_
  have within := Span.within_items h t ht
  unfold arrayElement
  refine yields_ite (fun _ => yields_map _ ?_) fun _ => yields_map _ ?_
  · have rest := (t.within_tail 3).trans within
    exact noHigher_mono (hp _ _ rest) rest.length_le
  · exact noHigher_mono (hp _ _ within) within.length_le

theorem objectAttribute_height (hp : ∀ l t, t.Within s → NoHigher t.chars.length (parse l t)) :
    Yields (objectAttribute parse s) fun entry => entry.value.height ≤ s.chars.length := by
  have rest (first : Nat) : NoHigher s.chars.length (parse .pipe (s.tail first)) :=
    noHigher_mono (hp _ _ (s.within_tail first)) (s.within_tail first).length_le
  unfold objectAttribute
  refine yields_ite (fun splat => ?_) fun _ => ?_
  · have dots : 3 ≤ s.chars.length := (List.isPrefixOf_iff_prefix.mp splat).length_le
    exact yields_ite (fun _ => yields_pure (Nat.le_trans (height_leaf rfl) (by omega))) fun _ => yields_map _ (rest 3)
  · split
    · exact yields_ite (fun _ => yields_bind fun name _ => yields_map _ (rest _)) fun _ => yields_failure
    · exact yields_bind fun value hv => yields_bind fun name _ => yields_pure (hp _ _ (.refl s) value hv)

/-- An object is one node on top of its values. -/
theorem objectBody_height (hp : ∀ l t, t.Within s → NoHigher t.chars.length (parse l t)) :
    NoHigher (s.chars.length + 1) (objectBody parse s) := by
  refine yields_bind fun items h => yields_bind fun entries he => yields_pure ?_
  have each : Yields (items.mapM (objectAttribute parse)) fun entries =>
      ∀ entry ∈ entries, entry.value.height ≤ s.chars.length := by
    refine yields_mapM fun t ht => ?_
    have within := Span.within_items h t ht
    exact fun entry hentry => Nat.le_trans
      (objectAttribute_height (fun l u hu => hp l u (hu.trans within)) entry hentry) within.length_le
  refine Expr.height_le_of_parts fun part mem => ?_
  obtain ⟨entry, hentry, rfl⟩ := List.mem_map.mp mem
  exact each entries he entry hentry

/-! ## Traversals -/

theorem bracket_height (base : Expr) (hp : ∀ l t, t.Within s → NoHigher t.chars.length (parse l t)) :
    NoHigher (base.height + s.chars.length + 1) (bracket constant? parse base s) := by
  have one {e : Expr} (parts : e.parts = [base]) : e.height ≤ base.height + s.chars.length + 1 :=
    height_over parts (Nat.le_add_right _ _)
  unfold bracket
  refine yields_ite (fun _ => yields_pure (one rfl)) fun ne => ?_
  split
  · exact yields_bind fun left _ => yields_bind fun right _ => yields_pure (one rfl)
  · refine yields_bind fun inner hi => ?_
    split
    · refine yields_bind fun index _ => yields_pure ?_
      have nonempty := List.length_pos_iff.mpr ne
      have := height_elementAt base index
      omega
    · exact yields_pure (one rfl)
    · have inside := hp _ _ (.refl s) inner hi
      exact yields_pure (height_over_both rfl (Nat.le_add_right _ _) (Nat.le_trans inside (Nat.le_add_left _ _)))

theorem projection_height (base : Expr) {body : Expr} {n : Nat} (h : body.height ≤ n + 1) :
    (Expr.projection base body).height ≤ base.height + n + 1 := by
  have := base.height_pos
  exact height_over_both rfl (by omega) (by omega)

theorem traversal_height (base : Expr) (hp : ∀ l t, t.Inside s → NoHigher t.chars.length (parse l t)) :
    Yields (traversal constant? parse base s) fun x => x.1.height + x.2.chars.length ≤ base.height + s.chars.length := by
  have field (e : Expr) (name : String) : (Expr.field e name).height ≤ e.height + 1 := height_over rfl (Nat.le_refl _)
  have deref : (Expr.deref base).height ≤ base.height + 1 := height_over rfl (Nat.le_refl _)
  unfold traversal
  split
  · rename_i rest hs
    refine yields_ite (fun _ => yields_failure) fun _ => yields_pure ?_
    have := field base (String.ofList (nameAt rest))
    simp only [Span.tail, hs, List.length_drop, List.length_cons]
    omega
  · rename_i rest hs
    refine yields_ite (fun _ => yields_pure ?_) fun ne => yields_pure ?_
    · simp only [Span.tail, hs, List.length_drop, List.length_cons]
      omega
    · have := field (.deref base) (String.ofList (nameAt rest))
      have := List.length_pos_iff.mpr ne
      simp only [Span.tail, hs, List.length_drop, List.length_cons]
      omega
  · refine yields_bind fun pair h => yields_bind fun e he => yields_pure ?_
    obtain ⟨inside, rest⟩ := pair
    have lengths := Span.enclosed_length h
    have := bracket_height base (fun l t ht => hp l t (ht.trans_inside (Span.inside_enclosed h).1)) e he
    show e.height + rest.chars.length ≤ _
    omega
  · refine yields_bind fun pair h => yields_bind fun body hb => yields_pure ?_
    obtain ⟨inside, rest⟩ := pair
    have lengths := Span.enclosed_length h
    have := projection_height base (objectBody_height (fun l t ht =>
      hp l t (ht.trans_inside (Span.inside_enclosed h).1)) body hb)
    show (Expr.projection base body).height + rest.chars.length ≤ _
    omega
  · exact yields_failure

/-! ## Operands -/

theorem callOperand_height (library name : List Char) (hp : ∀ l t, t.Inside s → NoHigher t.chars.length (parse l t)) :
    Yields (callOperand parse library name s) fun x => x.1.height + x.2.chars.length ≤ s.chars.length := by
  refine yields_bind fun (inside, rest) h => yields_bind fun args ha => yields_pure ?_
  have lengths := Span.enclosed_length h
  have high := Expr.height_le_of_parts (e := .call (String.ofList library) (String.ofList name) args)
    (arguments_height false (fun l t ht => hp l t (ht.trans_inside (Span.inside_enclosed h).1)) args ha)
  show (Expr.call _ _ args).height + rest.chars.length ≤ _
  omega

theorem parts_nameOperand (name : String) : (nameOperand name).parts = [] := by
  unfold nameOperand
  repeat' split
  all_goals rfl

theorem namedOperand_height (hp : ∀ l t, t.Inside s → NoHigher t.chars.length (parse l t)) :
    Yields (namedOperand parse s) fun x => x.1.height + x.2.chars.length ≤ s.chars.length ∨ x.1.height ≤ 1 := by
  have call {t : Span} (ht : t.Within s) (library name : List Char) : Yields (callOperand parse library name t)
      fun x => x.1.height + x.2.chars.length ≤ s.chars.length ∨ x.1.height ≤ 1 :=
    fun x hx => .inl (Nat.le_trans
      (callOperand_height library name (fun l u hu => hp l u (hu.trans_within ht)) x hx) ht.length_le)
  unfold namedOperand
  simp only []
  split
  · exact yields_ite (fun _ => yields_failure) fun _ => call ((Span.within_tail _ _).trans (s.within_tail _)) _ _
  · exact call (s.within_tail _) _ _
  · exact yields_pure (.inr (height_leaf (parts_nameOperand _)))

theorem operand_height (hp : ∀ l t, t.Inside s → NoHigher t.chars.length (parse l t)) :
    Yields (operand parse s) fun x => x.1.height + x.2.chars.length ≤ s.chars.length := by
  have leafOrMore : Yields (operand parse s) fun x =>
      x.1.height + x.2.chars.length ≤ s.chars.length ∨ x.1.height ≤ 1 := by
    have enclosed {i r : Span} (h : s.enclosed? = some (i, r)) :
        (∀ l t, t.Within i → NoHigher t.chars.length (parse l t)) ∧ i.chars.length + r.chars.length + 2 ≤ s.chars.length :=
      ⟨fun l t ht => hp l t (ht.trans_inside (Span.inside_enclosed h).1), Span.enclosed_length h⟩
    unfold operand
    split
    · exact yields_failure
    refine yields_ite (fun _ => ?_) fun _ => yields_ite (fun _ => ?_) fun _ => yields_ite (fun _ => ?_) fun _ => ?_
    · exact yields_bind fun length _ => yields_bind fun text _ => yields_pure (.inr (height_leaf rfl))
    · exact yields_bind fun numeral _ => yields_pure (.inr (height_leaf rfl))
    · exact yields_ite (fun _ => yields_failure) fun _ => yields_pure (.inr (height_leaf rfl))
    refine yields_ite (fun _ => yields_pure (.inr (height_leaf rfl))) fun _ => ?_
    refine yields_ite (fun _ => yields_pure (.inr (height_leaf rfl))) fun _ => ?_
    refine yields_ite (fun _ => yields_pure (.inr (height_leaf rfl))) fun _ => ?_
    refine yields_ite (fun _ => ?group) fun _ => yields_ite (fun _ => ?array) fun _ =>
      yields_ite (fun _ => ?object) fun _ => yields_ite (fun _ => namedOperand_height hp) fun _ => yields_failure
    case group =>
      refine yields_bind fun pair h => yields_bind fun e he => yields_pure (.inl ?_)
      obtain ⟨i, r⟩ := pair
      obtain ⟨shorter, lengths⟩ := enclosed h
      have high := height_over (e := .group e) rfl (shorter _ _ (.refl i) e he)
      show (Expr.group e).height + r.chars.length ≤ _
      omega
    case array =>
      refine yields_bind fun pair h => yields_bind fun entries he => yields_pure (.inl ?_)
      obtain ⟨i, r⟩ := pair
      obtain ⟨shorter, lengths⟩ := enclosed h
      have each := arrayElements_height shorter entries he
      have high := Expr.height_le_of_parts (e := .array entries) (List.forall_mem_map.mpr each)
      show (Expr.array entries).height + r.chars.length ≤ _
      omega
    case object =>
      refine yields_bind fun pair h => yields_bind fun e he => yields_pure (.inl ?_)
      obtain ⟨i, r⟩ := pair
      obtain ⟨shorter, lengths⟩ := enclosed h
      have high := objectBody_height shorter e he
      show e.height + r.chars.length ≤ _
      omega
  intro x hx
  rcases leafOrMore x hx with more | leaf
  · exact more
  · have shorter := (operand_rest s x hx).2.2
    omega

/-! ## Levels -/

variable (hp : ∀ l t, t.Inside s → NoHigher t.chars.length (parse l t))
  (hw : ∀ e t, t.Inside s → NoHigher (e.height + t.chars.length) (walk e t))

include hp hw in
theorem pipeTarget_height (base : Expr) : NoHigher (base.height + s.chars.length) (pipeTarget parse walk base s) := by
  have := base.height_pos
  unfold pipeTarget
  split
  · refine yields_bind fun (inside, rest) h => yields_bind fun body hb => ?_
    obtain ⟨shorter, after⟩ := Span.inside_enclosed h
    have lengths := Span.enclosed_length h
    have high := projection_height base (objectBody_height (fun l t ht => hp l t (ht.trans_inside shorter)) body hb)
    exact noHigher_mono (hw _ rest after) (by omega)
  · refine yields_ite (fun _ => yields_failure) fun _ => yields_bind fun (inside, rest) h => yields_bind fun args ha => ?_
    have within := s.within_tail (nameAt s.chars).length
    obtain ⟨shorter, after⟩ := Span.inside_enclosed h
    have lengths := Nat.le_trans (Span.enclosed_length h) within.length_le
    have each := arguments_height true (fun l t ht => hp l t ((ht.trans_inside shorter).trans_within within)) args ha
    have high := Expr.height_le_of_parts (e := .pipeCall (String.ofList (nameAt s.chars)) base args)
      (n := base.height + inside.chars.length) (List.forall_mem_cons.mpr
        ⟨Nat.le_add_right _ _, fun e he => Nat.le_trans (each e he) (Nat.le_add_left _ _)⟩)
    exact noHigher_mono (hw _ rest (after.trans_within within)) (by omega)

include hp hw in
theorem pipeLevel_height (tighter : NoHigher s.chars.length (parse .or s)) :
    NoHigher s.chars.length (pipeLevel parse walk s) := by
  refine yields_bind fun places h => yields_orElse (yields_firstSuccess fun p mem => ?_) tighter
  have lt := (surface_place h (List.mem_filter.mp (List.mem_reverse.mp mem)).1).1
  refine yields_bind fun base hb => ?_
  have left := hp _ _ (Span.inside_slice (by omega)) base hb
  have within := s.within_tail (p.offset + 1)
  refine noHigher_mono (pipeTarget_height (fun l t ht => hp l t (ht.trans_within within))
    (fun e t ht => hw e t (ht.trans_within within)) base) ?_
  simp only [Span.slice, Span.tail, List.drop_zero, List.length_take, List.length_drop] at left ⊢
  omega

include hp in
theorem infixLevel_height {l : Level} {r : InfixRule} (hr : l.infix? = some r)
    (tighter : NoHigher s.chars.length (parse l.tighter s)) : NoHigher s.chars.length (infixLevel parse l r s) := by
  refine yields_bind fun places h => yields_orElse (yields_firstSuccess fun (p, found) mem => ?_) tighter
  obtain ⟨hplace, hfound⟩ := mem_candidates mem
  have lt : p.offset < s.chars.length := (surface_place h hplace).1
  have ne : s.chars ≠ [] := List.length_pos_iff.mp (by omega)
  have pos : 0 < found.length := find_length hr hfound
  refine yields_bind fun right hright => yields_bind fun left hleft => yields_pure ?_
  have behind := hp _ _ (Span.inside_tail ne (by omega)) right hright
  have before := hp _ _ (Span.inside_slice (by omega)) left hleft
  simp only [Span.slice, Span.tail, List.drop_zero, List.length_take, List.length_drop] at behind before
  have both : (found.connective.apply left right).height ≤ s.chars.length - 1 + 1 :=
    height_connective found.connective (by omega) (by omega)
  exact Nat.le_trans both (by omega)

include hp in
/-- A sign takes one character for one node. -/
theorem signed_height {l : Level} (f : Expr → Expr) (onTop : ∀ {e : Expr} {n : Nat}, e.height ≤ n → (f e).height ≤ n + 1)
    (ne : s.chars ≠ []) : NoHigher s.chars.length (f <$> parse l (s.tail 1)) := by
  refine yields_map f fun e he => ?_
  have inside := onTop (hp _ _ (Span.inside_tail ne Nat.one_pos) e he)
  have := List.length_pos_iff.mpr ne
  simp only [Span.tail, List.length_drop] at inside
  omega

include hp in
theorem signLevel_height (tighter : NoHigher s.chars.length (parse .power s)) : NoHigher s.chars.length (signLevel parse s) := by
  unfold signLevel
  split
  · rename_i hs
    exact yields_orElse (signed_height hp Expr.not (height_over rfl) (by simp [hs])) tighter
  · rename_i hs
    exact yields_orElse (signed_height hp Expr.negate height_negate (by simp [hs])) tighter
  · rename_i hs
    exact yields_orElse (signed_height hp Expr.positive height_positive (by simp [hs])) tighter
  · exact tighter

include hp hw in
theorem operandLevel_height : NoHigher s.chars.length (operandLevel parse walk s) := by
  unfold operandLevel
  split
  · rename_i hs
    exact signed_height hp Expr.negate height_negate (by simp [hs])
  · rename_i hs
    exact signed_height hp Expr.positive height_positive (by simp [hs])
  · refine yields_bind fun (head, rest) h => ?_
    exact noHigher_mono (hw head rest (operand_rest s _ h).2) (operand_height hp _ h)

include hp hw in
/-- If no tree of a shorter stretch is higher than the stretch is long, none of this one is. -/
theorem rule_height (l : Level) (tighter : l ≠ .operand → NoHigher s.chars.length (parse l.tighter s)) :
    NoHigher s.chars.length (rule parse walk l s) := by
  cases l with
  | pipe => exact pipeLevel_height hp hw (tighter nofun)
  | sign => exact signLevel_height hp (tighter nofun)
  | operand => exact operandLevel_height hp hw
  | or | and | comparison | sum | product | power => exact infixLevel_height hp rfl (tighter nofun)

end Rules

/-! ## Texts -/

variable (constant? : Expr → Option Value)

theorem readSpan_height : (∀ l s, NoHigher s.chars.length (readSpan constant? l s)) ∧
    ∀ s base, NoHigher (base.height + s.chars.length) (followSpan constant? base s) := by
  refine span_induction (fun s levels walks base => ?_) fun l s levels walks tighter => ?_
  · rw [followSpan_eq]
    refine yields_ite (fun _ => yields_pure (Nat.le_add_right _ _)) fun _ => yields_bind fun (e, rest) he => ?_
    have inside := (traversal_rest base s _ he).2
    exact noHigher_mono (walks rest inside e) (traversal_height base levels _ he)
  · rw [readSpan_eq]
    exact yields_ite (fun _ => yields_failure) fun _ =>
      rule_height levels (fun e t ht => walks t ht e) l tighter

theorem reading_height {l : Level} {cs : List Char} {e : Expr} (h : reading constant? l cs = some e) :
    e.height ≤ cs.length :=
  (readSpan_height constant?).1 l ⟨0, cs⟩ e h

/-- A query parses to a tree no higher than its normal form is long. -/
theorem parse_height (limits : Limits) (query : String) (e : Expr) (h : parse limits query = .ok e) :
    ∃ n, normalizeChars query.toList = .ok n ∧ e.height ≤ n.length := by
  rw [← String.ofList_toList (s := query)] at h
  obtain ⟨n, hn, hr⟩ := parse_ok h
  exact ⟨n, hn, reading_height _ hr⟩

end Groq.Query
