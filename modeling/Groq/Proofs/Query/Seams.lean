/-
  Groq.Proofs.Query.Seams — where the parts of a text that parses meet.

  Two characters clash where the lexer would read the second with the first, or because of the first
  as an operator: two slashes, which begin a comment, and a word directly behind what ends an
  operand and is no word itself. A text is smooth where its neighbours outside literals do not clash
  and, as in `Plain`, it is ASCII there and ends there.
  Proved, by induction over the spelling: whatever a level accepts is smooth (`reading_smooth`).
-/

import Groq.Proofs.Query.Spelling

namespace Groq.Query

/-! ## Neighbours -/

/-- Does an operand end here that is no word? -/
def endsMark (c : Char) : Bool := isQuote c || isCloser c || c = '@' || c = '^'

/-- Is a character read another way directly behind this one? -/
def clashes (before c : Char) : Bool := before = '/' && c = '/' || endsMark before && beginsWord c

/-- Read from the mode on, behind a character, no neighbours outside literals clash, all is ASCII there, and
    there the text ends. -/
def Smooth (m : Mode) (before : Option Char) : List Char → Prop
  | [] => m = .code
  | c :: rest => (m = .code → c.toNat < 128 ∧ ∀ b, before = some b → clashes b c = false) ∧ Smooth (m.next c) (some c) rest

/-- Behind this a word may begin. -/
def Opens (before : Option Char) : Prop := ∀ b, before = some b → endsMark b = false

/-- Behind this a slash may stand. -/
def Ended (cs : List Char) : Prop := ∃ c, cs.getLast? = some c ∧ c ≠ '/'

/-- A character of names, numbers, signs and operators, the slash apart. -/
def isInner (c : Char) : Bool := !endsMark c && c != '/' && c.toNat < 128

section Smooth

variable {m : Mode} {before : Option Char} {c : Char} {w x y : List Char}

theorem Smooth.append (h : Smooth m before x) (hy : Smooth .code (x.getLast?.or before) y) : Smooth m before (x ++ y) := by
  induction x generalizing m before with
  | nil =>
    rw [show m = .code from h]
    exact hy
  | cons c rest ih =>
    refine ⟨h.1, ih h.2 ?_⟩
    have last : (c :: rest).getLast?.or before = rest.getLast?.or (some c) := by
      rw [List.getLast?_cons]
      rcases rest.getLast? with _ | d <;> rfl
    rw [← last]
    exact hy

theorem Smooth.of_append (h : Smooth m before (x ++ y)) : Smooth (m.after x) (x.getLast?.or before) y := by
  induction x generalizing m before with
  | nil => exact h
  | cons c rest ih =>
    have last : (c :: rest).getLast?.or before = rest.getLast?.or (some c) := by
      rw [List.getLast?_cons]
      rcases rest.getLast? with _ | d <;> rfl
    rw [last]
    exact ih h.2

theorem Smooth.plain (h : Smooth m before x) : Plain m x := by
  induction x generalizing m before with
  | nil => exact h
  | cons c rest ih => exact ⟨fun code => (h.1 code).1, ih h.2⟩

/-- A character that clashes with nothing before it. -/
theorem Smooth.cons (quote : isQuote c = false) (ascii : c.toNat < 128) (slash : c ≠ '/') (word : beginsWord c = false)
    (h : Smooth .code (some c) x) : Smooth .code before (c :: x) := by
  refine ⟨fun _ => ⟨ascii, fun b _ => ?_⟩, ?_⟩
  · simp [clashes, slash, word]
  · rw [next_code quote]
    exact h

theorem isInner_spec (h : isInner c = true) : endsMark c = false ∧ c ≠ '/' ∧ c.toNat < 128 := by
  simpa [isInner, and_assoc] using h

theorem isQuote_of_endsMark (h : endsMark c = false) : isQuote c = false := by
  simp only [endsMark, Bool.or_eq_false_iff] at h
  exact h.1.1.1

theorem opens_inner (h : isInner c = true) : Opens (some c) := by
  intro b hb
  cases hb
  exact (isInner_spec h).1

/-- Inner characters where a word may begin, and behind them what may stand there. -/
theorem Smooth.behind_inner (inner : ∀ c ∈ w, isInner c = true) (opens : Opens before)
    (h : ∀ before, Opens before → Smooth .code before x) : Smooth .code before (w ++ x) := by
  induction w generalizing before with
  | nil => exact h before opens
  | cons c w ih =>
    obtain ⟨first, others⟩ := List.forall_mem_cons.mp inner
    obtain ⟨mark, slash, ascii⟩ := isInner_spec first
    refine ⟨fun _ => ⟨ascii, fun b hb => ?_⟩, ?_⟩
    · simp [clashes, slash, opens b hb]
    · rw [next_code (isQuote_of_endsMark mark)]
      exact ih others (opens_inner first)

theorem smooth_inner (inner : ∀ c ∈ w, isInner c = true) (opens : Opens before) : Smooth .code before w := by
  have whole := Smooth.behind_inner (x := []) inner opens fun _ _ => rfl
  rwa [List.append_nil] at whole

/-- Inner characters in a row, the first of which goes on with nothing before it. -/
theorem Smooth.front (word : beginsWord c = false) (inner : ∀ d ∈ c :: w, isInner d = true)
    (h : ∀ before, Opens before → Smooth .code before x) : Smooth .code before (c :: (w ++ x)) := by
  obtain ⟨first, others⟩ := List.forall_mem_cons.mp inner
  obtain ⟨mark, slash, ascii⟩ := isInner_spec first
  exact .cons (isQuote_of_endsMark mark) ascii slash word (.behind_inner others (opens_inner first) h)

/-- One such character. -/
theorem Smooth.mark (word : beginsWord c = false) (inner : isInner c = true)
    (h : ∀ before, Opens before → Smooth .code before x) : Smooth .code before (c :: x) :=
  .front (w := []) word (List.forall_mem_singleton.mpr inner) h

theorem isInner_of_isNameChar (h : isNameChar c = true) : isInner c = true := by
  have bare := isBare_of_isNameChar h
  have slash := (plain_of_isNameChar h).2.1
  have mark : endsMark c = false := by
    rcases mark : endsMark c with _ | _
    · rfl
    · simp only [endsMark, isQuote, isCloser, Bool.or_eq_true, decide_eq_true_eq] at mark
      rcases mark with (((rfl | rfl) | (rfl | rfl) | rfl) | rfl) | rfl
      all_goals exact absurd h (by decide)
  simp only [isBare, Bool.and_eq_true, decide_eq_true_eq] at bare
  simp [isInner, mark, slash, bare.2]

theorem isInner_of_name (hn : nameAt w = w) : ∀ c ∈ w, isInner c = true := by
  intro c hc
  rw [← hn] at hc
  exact isInner_of_isNameChar (name_isNameChar w c hc)

theorem isInner_of_spelled (h : IsSpelled w) : ∀ c ∈ w, isInner c = true := by
  intro c hc
  rcases h.1 c hc with name | rfl | rfl | rfl
  · exact isInner_of_isNameChar name
  all_goals decide

theorem smooth_literalRest {quote : Char} {cs : List Char} (h : literalRest? quote cs = some cs.length) (before : Option Char) :
    Smooth (.literal quote) before cs := by
  generalize hl : cs.length = length at h
  fun_induction literalRest? quote cs generalizing length before with
  | case1 => cases h
  | case2 d rest ih =>
    obtain ⟨n, hn, rfl⟩ := Option.map_eq_some_iff.mp h
    simp only [List.length_cons] at hl
    exact ⟨by simp, by simp [Mode.next], ih _ n (by omega) hn⟩
  | case3 => cases h
  | case4 rest plain =>
    cases h
    have closed : (Mode.literal quote).next quote = .code := (if_neg plain).trans (if_pos rfl)
    obtain rfl : rest = [] := List.length_eq_zero_iff.mp (by simpa using hl)
    exact ⟨by simp, closed⟩
  | case5 d rest plain other ih =>
    obtain ⟨n, hn, rfl⟩ := Option.map_eq_some_iff.mp h
    have inside : (Mode.literal quote).next d = .literal quote := (if_neg plain).trans (if_neg other)
    refine ⟨by simp, ?_⟩
    rw [inside]
    exact ih _ n (by simpa using hl) hn

theorem smooth_literal (h : literalLength? w = some w.length) (before : Option Char) : Smooth .code before w ∧ Ended w := by
  rcases w with _ | ⟨c, cs⟩
  · cases h
  · simp only [literalLength?] at h
    split at h
    · rename_i quote
      obtain ⟨n, hn, hlen⟩ := Option.map_eq_some_iff.mp h
      simp only [List.length_cons, Nat.add_right_cancel_iff] at hlen
      rw [hlen] at hn
      have opened : Mode.code.next c = .literal c := if_pos quote
      have spec : c.toNat < 128 ∧ c ≠ '/' ∧ beginsWord c = false := by
        rcases quote with rfl | rfl
        all_goals decide
      obtain ⟨ascii, slash, word⟩ := spec
      refine ⟨⟨fun _ => ⟨ascii, fun b _ => by simp [clashes, slash, word]⟩, ?_⟩, c, ?_, slash⟩
      · rw [opened]
        exact smooth_literalRest hn _
      · rw [List.getLast?_cons, literalRest_last hn]
        rfl
    · cases h

/-- Behind an operand an operator is smooth, and so is what may stand behind it. -/
theorem Smooth.behind_operator (op : Operator) (slash : before ≠ some '/')
    (h : ∀ before, Opens before → Smooth .code before x) : Smooth .code before (op.text ++ x) := by
  have front {c : Char} {w : List Char} (word : beginsWord c = false) (inner : (c :: w).all isInner = true) :
      Smooth .code before (c :: (w ++ x)) := .front word (List.all_eq_true.mp inner) h
  rcases op with _ | _ | _ | op
  · exact front (by decide) (by decide)
  · exact front (by decide) (by decide)
  · exact front (by decide) (by decide)
  · cases op
    case divide =>
      refine ⟨fun _ => ⟨by decide, fun b hb => ?_⟩, h _ fun b hb => ?_⟩
      · have : b ≠ '/' := fun same => slash (same ▸ hb)
        simp [clashes, this, show beginsWord '/' = false by decide]
      · cases hb
        rfl
    all_goals exact front (by decide) (by decide)

theorem Ended.behind (h : Ended y) (x : List Char) : Ended (x ++ y) := by
  obtain ⟨c, hc, slash⟩ := h
  exact ⟨c, by rw [List.getLast?_append, hc]; rfl, slash⟩

theorem Ended.not_slash (h : Ended x) : x.getLast?.or before ≠ some '/' := by
  obtain ⟨c, hc, slash⟩ := h
  rw [hc]
  simpa using slash

theorem ended_inner (ne : w ≠ []) (inner : ∀ c ∈ w, isInner c = true) : Ended w := by
  obtain ⟨c, hc⟩ := Option.isSome_iff_exists.mp (List.getLast?_isSome.mpr ne)
  exact ⟨c, hc, (isInner_spec (inner c (List.mem_of_getLast? hc))).2.1⟩

end Smooth

/-! ## Parts -/

/-- What is smooth of a part: a word may begin queries, operands and lists; brackets and traversals may stand
    anywhere. Behind an operand a slash may stand. -/
def Part.IsSmooth : Part → List Char → Prop
  | .query, x => (∀ before, Opens before → Smooth .code before x) ∧ Ended x
  | .operand, x => (∀ before, Opens before → Smooth .code before x) ∧ Ended x
  | .brackets, x => (∀ before, Smooth .code before x) ∧ Ended x
  | .chain, x => (∀ before, Smooth .code before x) ∧ (x = [] ∨ Ended x)
  | .list, x => ∀ before, Opens before → Smooth .code before x
  | .item, x => ∀ before, Opens before → Smooth .code before x

theorem Part.IsSmooth.behind {w x : List Char} (h : Part.chain.IsSmooth x) (ended : Ended w) : Ended (w ++ x) := by
  rcases h.2 with rfl | last
  · rw [List.append_nil]
    exact ended
  · exact last.behind w

/-- By induction on the spelling. -/
theorem Spells.smooth {part : Part} {x : List Char} (h : Spells part x) : part.IsSmooth x := by
  have single {c : Char} (quote : isQuote c = false) (ascii : c.toNat < 128) (slash : c ≠ '/') (word : beginsWord c = false) :
      Part.operand.IsSmooth [c] := ⟨fun _ _ => .cons quote ascii slash word rfl, c, rfl, slash⟩
  have inner {w : List Char} (h : w.all isInner = true) : ∀ c ∈ w, isInner c = true := List.all_eq_true.mp h
  induction h with
  | @signed c x hc _ ih =>
    have sign : beginsWord c = false ∧ isInner c = true := by rcases hc with rfl | rfl | rfl <;> decide
    exact ⟨fun _ _ => .mark sign.1 sign.2 ih.1, ih.2.behind [c]⟩
  | @joined a b op _ _ iha ihb =>
    refine ⟨fun before hb => (iha.1 before hb).append (.behind_operator op iha.2.not_slash ihb.1), ?_⟩
    exact (ihb.2.behind op.text).behind a
  | applied _ _ iha ihb => exact ⟨fun before hb => (iha.1 before hb).append (ihb.1 _), ihb.behind iha.2⟩
  | literal hw => exact ⟨fun before _ => (smooth_literal hw before).1, (smooth_literal hw none).2⟩
  | @numeral c w _ spelled =>
    have all := isInner_of_spelled spelled
    exact ⟨fun _ hb => smooth_inner all hb, ended_inner (List.cons_ne_nil c w) all⟩
  | @parameter w hw =>
    have all := isInner_of_name hw.2
    refine ⟨fun _ _ => .mark (by decide) (by decide) fun _ hb => smooth_inner all hb, ?_⟩
    exact (ended_inner hw.1 all).behind ['$']
  | this => exact single (by decide) (by decide) (by decide) (by decide)
  | everything => exact single (by decide) (by decide) (by decide) (by decide)
  | parent => exact single (by decide) (by decide) (by decide) (by decide)
  | grandparent _ ih =>
    refine ⟨fun _ _ => .cons (by decide) (by decide) (by decide) (by decide) ?_, ih.2.behind ['^', '.']⟩
    exact .mark (by decide) (by decide) ih.1
  | enclosed _ ih => exact ⟨fun before _ => ih.1 before, ih.2⟩
  | name hw => exact ⟨fun _ hb => smooth_inner (isInner_of_name hw.2) hb, ended_inner hw.1 (isInner_of_name hw.2)⟩
  | @call w x hw _ ih =>
    exact ⟨fun _ hb => .behind_inner (isInner_of_name hw.2) hb fun before _ => ih.1 before, ih.2.behind w⟩
  | @qualified v w x hv hw _ ih =>
    have library : ∀ c ∈ ':' :: ':' :: w, isInner c = true :=
      List.forall_mem_cons.mpr ⟨by decide, List.forall_mem_cons.mpr ⟨by decide, isInner_of_name hw.2⟩⟩
    refine ⟨fun _ hb => .behind_inner (isInner_of_name hv.2) hb fun _ _ => ?_, (ih.2.behind (':' :: ':' :: w)).behind v⟩
    exact .front (by decide) library fun before _ => ih.1 before
  | @bracketed c d x hd _ ih =>
    have brackets : (beginsWord c = false ∧ isInner c = true) ∧ isQuote d = false ∧ d.toNat < 128 ∧ d ≠ '/' ∧ beginsWord d = false := by
      unfold closerOf? at hd
      split at hd
      all_goals cases hd
      all_goals decide
    obtain ⟨⟨word, opener⟩, quote, ascii, slash, closer⟩ := brackets
    refine ⟨fun _ => .mark word opener fun before hb => (ih before hb).append (.cons quote ascii slash closer rfl), ?_⟩
    exact (show Ended [d] from ⟨d, rfl, slash⟩).behind (c :: x)
  | done => exact ⟨fun _ => rfl, .inl rfl⟩
  | @field w x hw _ ih =>
    have all : ∀ c ∈ '.' :: w, isInner c = true := List.forall_mem_cons.mpr ⟨by decide, isInner_of_name hw.2⟩
    refine ⟨fun _ => .front (by decide) all fun before _ => ih.1 before, .inr ?_⟩
    exact ih.behind (ended_inner (List.cons_ne_nil _ _) all)
  | @deref w x hw _ ih =>
    have all : ∀ c ∈ '-' :: '>' :: w, isInner c = true :=
      List.forall_mem_cons.mpr ⟨by decide, List.forall_mem_cons.mpr ⟨by decide, isInner_of_name hw⟩⟩
    refine ⟨fun _ => .front (by decide) all fun before _ => ih.1 before, .inr ?_⟩
    exact ih.behind (ended_inner (List.cons_ne_nil _ _) all)
  | traversed _ _ iha ihb => exact ⟨fun before => (iha.1 before).append (ihb.1 _), .inr (ihb.behind iha.2)⟩
  | empty => exact fun _ _ => rfl
  | single _ ih => exact ih
  | more _ _ ihx ihy => exact fun before hb => (ihx before hb).append (.mark (by decide) (by decide) ihy)
  | range inclusive _ _ iha ihb =>
    refine fun before hb => (iha.1 before hb).append ?_
    cases inclusive
    · exact .front (w := ['.', '.']) (by decide) (inner (by decide)) ihb.1
    · exact .front (w := ['.']) (by decide) (inner (by decide)) ihb.1
  | plain _ ih => exact ih.1
  | splat _ ih => exact fun _ _ => .front (w := ['.', '.']) (by decide) (inner (by decide)) ih.1
  | splatThis => exact fun _ hb => smooth_inner (inner (by decide)) hb
  | keyed hw _ ih => exact fun before _ => (smooth_literal hw before).1.append (.mark (by decide) (by decide) ih.1)
  | sorted descending _ ih =>
    refine fun before hb => (ih.1 before hb).append ?_
    cases descending
    · exact .mark (by decide) (by decide) fun _ hb => smooth_inner (inner (by decide)) hb
    · exact .mark (by decide) (by decide) fun _ hb => smooth_inner (inner (by decide)) hb

/-- Whatever a level accepts is smooth. -/
theorem reading_smooth {constant? : Expr → Option Value} {l : Level} {cs : List Char} {e : Expr}
    (h : reading constant? l cs = some e) : Smooth .code none cs :=
  (reading_spells h).smooth.1 none nofun

/-- Whatever a level accepts is ASCII outside literals. -/
theorem reading_plain {constant? : Expr → Option Value} {l : Level} {cs : List Char} {e : Expr}
    (h : reading constant? l cs = some e) : Plain .code cs :=
  (reading_smooth h).plain

end Groq.Query
