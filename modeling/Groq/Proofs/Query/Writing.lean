/-
  Groq.Proofs.Query.Writing — the normal form of texts written one after the other.

  A text is written as its normal form wherever it stands where it is closed and its lexemes are
  written the same way after anything (`Writes`). Proved: names, parameters, literals, numbers and
  what stands in brackets are like that, and so are two such texts with an operator and spaces
  between them (`Writes.join`).
-/

import Groq.Proofs.Query.Lexemes
import Groq.Proofs.Query.Operators

namespace Groq.Query

/-! ## Writing -/

/-- What is written later does not change what was written. -/
theorem writeFrom_append (operand spaced : Bool) (ls : List Lexeme) : ∃ operand' spaced', ∀ more,
    writeFrom operand spaced (ls ++ more) = writeFrom operand spaced ls ++ writeFrom operand' spaced' more := by
  induction ls generalizing operand spaced with
  | nil => exact ⟨operand, spaced, fun _ => rfl⟩
  | cons lexeme ls ih =>
    cases lexeme with
    | word letters =>
      by_cases h : (operand && isKeyword letters) = true
      · obtain ⟨o, s, ih⟩ := ih true true
        exact ⟨o, s, fun more => by simp [writeFrom, h, ih]⟩
      · obtain ⟨o, s, ih⟩ := ih true false
        exact ⟨o, s, fun more => by simp [writeFrom, h, ih]⟩
    | literal text =>
      obtain ⟨o, s, ih⟩ := ih (Lexeme.literal text).endsOperand false
      exact ⟨o, s, fun more => by simp [writeFrom, ih]⟩
    | number text =>
      obtain ⟨o, s, ih⟩ := ih (Lexeme.number text).endsOperand false
      exact ⟨o, s, fun more => by simp [writeFrom, ih]⟩
    | mark c =>
      obtain ⟨o, s, ih⟩ := ih (Lexeme.mark c).endsOperand false
      exact ⟨o, s, fun more => by simp [writeFrom, ih]⟩

/-- An operand that is cut the same way wherever it stands, and is written as `normal` wherever it stands. -/
def Writes (text normal : List Char) : Prop :=
  ∃ ls, (∀ position, Closed position text ls) ∧
    ∀ operand spaced more, writeFrom operand spaced (ls ++ more) = normal ++ writeFrom true false more

theorem Writes.normalize {text normal : List Char} (h : Writes text normal) : normalizeChars text = .ok normal := by
  obtain ⟨ls, cut, written⟩ := h
  have all := cut 0 [] stops_nil
  rw [List.append_nil, lexemesFrom] at all
  have alone := written false false []
  rw [List.append_nil] at alone
  unfold normalizeChars lexemes
  rw [all]
  simp [Except.map, alone, writeFrom]

/-! ## Names and parameters -/

section Names

variable {w : List Char}

theorem run_whole {p : Char → Bool} {cs : List Char} (h : ∀ c ∈ cs, p c = true) :
    cs.takeWhile p = cs ∧ cs.dropWhile p = [] := by
  induction cs with
  | nil => exact ⟨rfl, rfl⟩
  | cons c cs ih =>
    obtain ⟨ht, hd⟩ := ih fun d hd => h d (List.mem_cons_of_mem _ hd)
    simp [h c List.mem_cons_self, ht, hd]

/-- A run of word characters ends where what follows stops it. -/
theorem run_append {cs x : List Char} (h : ∀ c ∈ cs, isWordChar c = true) (hx : Stops x) :
    (cs ++ x).takeWhile isWordChar = cs ∧ (cs ++ x).dropWhile isWordChar = x := by
  obtain ⟨ht, hd⟩ := run_whole h
  have both : _ ∧ (cs ++ x).dropWhile isWordChar = _ := run_split (.inl hx)
  rw [ht, hd] at both
  exact both

theorem name_chars {c : Char} {cs : List Char} (h : nameAt (c :: cs) = c :: cs) :
    beginsName c = true ∧ ∀ d ∈ cs, isNameChar d = true := by
  have hc : beginsName c = true := beginsName_of_nameAt (by rw [h]; exact List.cons_ne_nil _ _)
  simp only [nameAt, hc, if_true, List.cons.injEq, true_and] at h
  refine ⟨hc, fun d hd => ?_⟩
  rw [← h] at hd
  exact List.all_eq_true.mp List.all_takeWhile d hd

theorem closed_name (hw : w ≠ []) (hn : nameAt w = w) (position : Nat) : Closed position w [.word w] := by
  obtain ⟨c, cs, rfl⟩ := List.exists_cons_of_ne_nil hw
  obtain ⟨hc, hcs⟩ := name_chars hn
  obtain ⟨quote, slash, blank⟩ := plain_of_isNameChar (isNameChar_of_beginsName hc)
  intro x hx
  obtain ⟨ht, hd⟩ := run_append (fun d hd => isWordChar_of_isNameChar (hcs d hd)) hx
  rw [List.cons_append, lexemes_word quote slash blank (beginsWord_of_beginsName hc), ht, hd]
  rfl

theorem writes_name (hw : w ≠ []) (hn : nameAt w = w) (hk : isKeyword w = false) : Writes w w := by
  refine ⟨[.word w], closed_name hw hn, fun operand spaced more => ?_⟩
  simp [writeFrom, hk]

/-- Behind the sign of a parameter no word is an operator. -/
theorem writes_parameter (hw : w ≠ []) (hn : nameAt w = w) : Writes ('$' :: w) ('$' :: w) := by
  refine ⟨[.mark '$', .word w], fun position x hx => ?_, fun operand spaced more => ?_⟩
  · rw [List.cons_append, lexemes_mark (by decide) fun h => absurd h (by decide),
      closed_name hw hn _ x hx, List.length_cons, Nat.add_assoc, Nat.add_comm 1]
    rcases lexemesFrom (position + (w.length + 1)) x with e | more <;> rfl
  · have sign : (Lexeme.mark '$').endsOperand = false := by decide
    simp [writeFrom, sign, Lexeme.text]

end Names

/-! ## Literals -/

/-- The lexer and the parser find the same end of a literal. -/
theorem takeLiteral_whole {quote : Char} {opened position : Nat} {done cs text after : List Char} {length : Nat}
    (h : takeLiteral quote opened position done cs = .ok (text, after)) (hl : literalRest? quote cs = some length) :
    text = done.reverse ++ cs.take length ∧ after = cs.drop length := by
  fun_induction takeLiteral quote opened position done cs generalizing length with
  | case1 => cases h
  | case2 => cases h
  | case3 => cases h
  | case4 position done c rest plain ih =>
    rw [literalRest?] at hl
    obtain ⟨n, hn, rfl⟩ := Option.map_eq_some_iff.mp hl
    obtain ⟨rfl, rfl⟩ := ih h hn
    exact ⟨by simp, by simp⟩
  | case5 position done rest plain =>
    rw [literalRest?, if_pos rfl] at hl
    · cases h
      cases hl
      exact ⟨by simp, by simp⟩
    · exact plain
  | case6 position done c rest plain other ih =>
    rw [literalRest?, if_neg other] at hl
    · obtain ⟨n, hn, rfl⟩ := Option.map_eq_some_iff.mp hl
      obtain ⟨rfl, rfl⟩ := ih h hn
      exact ⟨by simp, by simp⟩
    · exact plain

theorem writes_literal {w : List Char} (hl : literalLength? w = some w.length) {ls : List Lexeme}
    (ok : lexemesFrom 0 w = .ok ls) : Writes w w := by
  rcases w with _ | ⟨c, cs⟩
  · cases hl
  simp only [literalLength?] at hl
  split at hl
  · rename_i hc
    have quote : isQuote c = true := by simpa [isQuote] using hc
    obtain ⟨length, hlength, hsucc⟩ := Option.map_eq_some_iff.mp hl
    have all : length = cs.length := by
      rw [List.length_cons] at hsucc
      omega
    rcases ht : takeLiteral c 0 1 [c] cs with e | ⟨text, after⟩
    · rw [lexemesFrom] at ok
      simp only [quote, if_true] at ok
      split at ok
      · cases ok
      · rename_i ht'
        cases ht.symm.trans ht'
    · obtain ⟨rfl, rfl⟩ := takeLiteral_whole ht hlength
      rw [all, List.take_length, List.drop_length] at ht
      refine ⟨[.literal (c :: cs)], fun position x _ => ?_, fun operand spaced more => rfl⟩
      have here := (takeLiteral_append (takeLiteral_position ht position (position + 1)) x).1
      rw [List.cons_append, lexemes_literal quote here]
      rfl
  · cases hl

/-! ## Numbers -/

/-- Runs of letters and digits with points and signs between them. -/
def IsSpelled (w : List Char) : Prop :=
  (∀ c ∈ w, isNameChar c = true ∨ c = '.' ∨ c = '+' ∨ c = '-') ∧ ∀ c, w.getLast? = some c → isNameChar c = true

theorem takeDigits_all (cs : List Char) : ∀ c ∈ (Text.takeDigits cs).1, c.isDigit = true :=
  List.all_eq_true.mp List.all_takeWhile

theorem spelled_digits {ds : List Char} (h : ∀ c ∈ ds, c.isDigit = true) : IsSpelled ds :=
  ⟨fun c hc => .inl (isNameChar_of_isDigit (h c hc)),
    fun c hc => isNameChar_of_isDigit (h c (List.mem_of_getLast? hc))⟩

theorem spelled_append {v w : List Char} (hv : IsSpelled v) (hw : IsSpelled w) : IsSpelled (v ++ w) := by
  refine ⟨fun c hc => ?_, fun c hc => ?_⟩
  · rcases List.mem_append.mp hc with hc | hc
    · exact hv.1 c hc
    · exact hw.1 c hc
  · rw [List.getLast?_append] at hc
    rcases hl : w.getLast? with _ | d
    · rw [hl] at hc
      exact hv.2 c hc
    · rw [hl] at hc
      cases hc
      exact hw.2 _ hl

theorem spelled_suffix {v w : List Char} (hw : IsSpelled w) (h : v <:+ w) : IsSpelled v := by
  obtain ⟨front, rfl⟩ := h
  refine ⟨fun c hc => hw.1 c (List.mem_append_right _ hc), fun c hc => hw.2 c ?_⟩
  rw [List.getLast?_append, hc]
  rfl

theorem spelled_mark {c : Char} {ds : List Char} (hc : isNameChar c = true ∨ c = '.' ∨ c = '+' ∨ c = '-')
    (ne : ds ≠ []) (h : IsSpelled ds) : IsSpelled (c :: ds) := by
  refine ⟨fun d hd => ?_, fun d hd => ?_⟩
  · rcases List.mem_cons.mp hd with rfl | hd
    · exact hc
    · exact h.1 d hd
  · obtain ⟨e, ds, rfl⟩ := List.exists_cons_of_ne_nil ne
    rw [List.getLast?_cons_cons] at hd
    exact h.2 d hd

theorem fraction_spelled {cs digits rest : List Char} (h : Double.fraction? cs = some (digits, rest)) :
    ∃ w, cs = w ++ rest ∧ IsSpelled w := by
  unfold Double.fraction? at h
  split at h
  · rename_i cs
    dsimp only at h
    split at h
    · cases h
    · rename_i ne
      cases h
      refine ⟨'.' :: (Text.takeDigits cs).1, ?_, spelled_mark (.inr (.inl rfl)) ne (spelled_digits (takeDigits_all _))⟩
      rw [List.cons_append, takeDigits_append]
  · cases h

theorem signedExponent_spelled {negative : Bool} {cs rest : List Char} {e : Int}
    (h : Double.signedExponent? negative cs = some (e, rest)) : ∃ w, w ≠ [] ∧ cs = w ++ rest ∧ IsSpelled w := by
  unfold Double.signedExponent? at h
  dsimp only at h
  split at h
  · cases h
  · rename_i ne
    cases h
    exact ⟨_, ne, (takeDigits_append cs).symm, spelled_digits (takeDigits_all _)⟩

theorem exponent_spelled {cs rest : List Char} {e : Int} (h : Double.exponent? cs = some (e, rest)) :
    ∃ w, cs = w ++ rest ∧ IsSpelled w := by
  unfold Double.exponent? at h
  split at h
  · rename_i c cs
    split at h
    · rename_i hc
      have letter : isNameChar c = true := by
        rcases hc with rfl | rfl
        · decide
        · decide
      split at h
      · obtain ⟨w, ne, rfl, hw⟩ := signedExponent_spelled h
        have sign := spelled_mark (.inr (.inr (.inl rfl))) ne hw
        exact ⟨c :: '+' :: w, rfl, spelled_mark (.inl letter) (List.cons_ne_nil _ _) sign⟩
      · obtain ⟨w, ne, rfl, hw⟩ := signedExponent_spelled h
        have sign := spelled_mark (.inr (.inr (.inr rfl))) ne hw
        exact ⟨c :: '-' :: w, rfl, spelled_mark (.inl letter) (List.cons_ne_nil _ _) sign⟩
      · obtain ⟨w, ne, rfl, hw⟩ := signedExponent_spelled h
        exact ⟨c :: w, rfl, spelled_mark (.inl letter) ne hw⟩
    · cases h
  · cases h

theorem numeral_spelled {cs rest : List Char} {n : Double.Numeral} (h : Double.numeral? cs = some (n, rest)) :
    ∃ c w, cs = c :: w ++ rest ∧ c.isDigit = true ∧ IsSpelled (c :: w) := by
  unfold Double.numeral? at h
  dsimp only at h
  split at h
  · cases h
  rename_i ne
  obtain ⟨c, whole, hwhole⟩ := List.exists_cons_of_ne_nil ne
  have digits := takeDigits_all cs
  have front := takeDigits_append cs
  rw [hwhole] at digits front
  have spelled : ∀ w after, (Text.takeDigits cs).2 = w ++ after → IsSpelled w →
      ∃ d v, cs = d :: v ++ after ∧ d.isDigit = true ∧ IsSpelled (d :: v) := by
    intro w after hafter hw
    refine ⟨c, whole ++ w, ?_, digits c List.mem_cons_self, ?_⟩
    · rw [← front, hafter]
      simp
    · rw [← List.cons_append]
      exact spelled_append (spelled_digits digits) hw
  have empty : IsSpelled [] := ⟨nofun, nofun⟩
  obtain ⟨v, middle, hv, hspelled, hmiddle⟩ : ∃ v middle, (Text.takeDigits cs).2 = v ++ middle ∧ IsSpelled v ∧
      ((Double.fraction? (Text.takeDigits cs).2).getD ([], (Text.takeDigits cs).2)).2 = middle := by
    rcases hf : Double.fraction? (Text.takeDigits cs).2 with _ | ⟨ds, after⟩
    · exact ⟨[], _, rfl, empty, rfl⟩
    · obtain ⟨v, hv, hspelled⟩ := fraction_spelled hf
      exact ⟨v, after, hv, hspelled, rfl⟩
  rw [hmiddle] at h
  split at h
  · rename_i he
    cases h
    obtain ⟨w, rfl, hw⟩ := exponent_spelled he
    exact spelled (v ++ w) _ (by rw [hv, List.append_assoc]) (spelled_append hspelled hw)
  · cases h
    exact spelled v _ hv hspelled

/-- A run of word characters is one lexeme, and is written as it is where no operator could stand. -/
theorem lexemes_run {c : Char} (rest : List Char) (hc : isNameChar c = true) : ∃ lexeme,
    (∀ position x, Stops x ∨ rest.dropWhile isWordChar ≠ [] → lexemesFrom position (c :: rest ++ x) =
      (lexemesFrom (position + (rest.takeWhile isWordChar).length + 1) (rest.dropWhile isWordChar ++ x)).map
        (lexeme :: ·)) ∧
    ∀ operand spaced more, (operand = true → beginsWord c = false) →
      writeFrom operand spaced (lexeme :: more) = c :: rest.takeWhile isWordChar ++ writeFrom true false more := by
  obtain ⟨quote, slash, blank⟩ := plain_of_isNameChar hc
  by_cases hw : beginsWord c = true
  · refine ⟨.word (c :: rest.takeWhile isWordChar), fun position x hx => ?_, fun operand spaced more ho => ?_⟩
    · rw [List.cons_append, lexemes_word quote slash blank hw, (run_split hx).1, (run_split hx).2]
    · have outside : operand = false := by
        cases operand
        · rfl
        · cases hw.symm.trans (ho rfl)
      simp [writeFrom, outside]
  · have hw : beginsWord c = false := by simpa using hw
    have digit : c.isDigit = true := by
      simp only [isNameChar, Char.isAlphanum, Bool.or_eq_true, decide_eq_true_eq] at hc
      rcases hc with (hc | hc) | rfl
      · have name : beginsName c = true := by simp [beginsName, hc]
        cases hw.symm.trans (beginsWord_of_beginsName name)
      · exact hc
      · exact absurd hw (by decide)
    refine ⟨.number (c :: rest.takeWhile isWordChar), fun position x hx => ?_, fun operand spaced more _ => rfl⟩
    rw [List.cons_append, lexemes_number quote slash blank hw digit, (run_split hx).1, (run_split hx).2]

theorem mark_of_spelled {c : Char} (h : isNameChar c = true ∨ c = '.' ∨ c = '+' ∨ c = '-') (hc : ¬ isNameChar c = true) :
    (Lexeme.mark c).endsOperand = false ∧
      ∀ position rest, lexemesFrom position (c :: rest) = (lexemesFrom (position + 1) rest).map (.mark c :: ·) := by
  rcases h with h | rfl | rfl | rfl
  · exact absurd h hc
  all_goals refine ⟨by decide, fun position rest => ?_⟩
  all_goals exact lexemes_mark (by decide) fun h => absurd h (by decide)

/-- By induction on the length: a run or a mark, and what follows it. -/
theorem writes_spelled {w : List Char} (ne : w ≠ []) (h : IsSpelled w) : ∃ ls, (∀ position, Closed position w ls) ∧
    ∀ operand spaced more, (operand = true → ∀ c, w.head? = some c → beginsWord c = false) →
      writeFrom operand spaced (ls ++ more) = w ++ writeFrom true false more := by
  induction hn : w.length using Nat.strongRecOn generalizing w with
  | ind n ih =>
  rcases w with _ | ⟨c, rest⟩
  · exact absurd rfl ne
  rw [List.length_cons] at hn
  by_cases hc : isNameChar c = true
  · obtain ⟨lexeme, cut, written⟩ := lexemes_run rest hc
    have length := takeWhile_length_add isWordChar rest
    by_cases hrest : rest.dropWhile isWordChar = []
    · have whole : rest.takeWhile isWordChar = rest := by
        have front := List.takeWhile_append_dropWhile (p := isWordChar) (l := rest)
        rwa [hrest, List.append_nil] at front
      refine ⟨[lexeme], fun position x hx => ?_, fun operand spaced more ho => ?_⟩
      · rw [cut position x (.inl hx), whole, hrest]
        rfl
      · rw [List.singleton_append, written operand spaced more fun h => ho h c rfl, whole]
    · have suffix := List.dropWhile_suffix isWordChar (l := rest)
      obtain ⟨ls, cut', written'⟩ := ih _ (by omega) hrest (spelled_suffix h (suffix.trans (List.suffix_cons _ _))) rfl
      refine ⟨lexeme :: ls, fun position x hx => ?_, fun operand spaced more ho => ?_⟩
      · have whole : position + (rest.takeWhile isWordChar).length + 1 + (rest.dropWhile isWordChar).length =
            position + (c :: rest).length := by
          rw [List.length_cons]
          omega
        rw [cut position x (.inr hrest), cut' _ x hx, whole]
        rcases lexemesFrom (position + (c :: rest).length) x with e | more <;> rfl
      · have stopped : ∀ d, (rest.dropWhile isWordChar).head? = some d → beginsWord d = false := by
          intro d hd
          have outside : isWordChar d = false := by
            have first := List.head?_dropWhile_not isWordChar rest
            rwa [hd] at first
          by_cases hw : beginsWord d = true
          · rw [isWordChar_of_beginsWord hw] at outside
            cases outside
          · simpa using hw
        rw [List.cons_append, written operand spaced _ fun h => ho h c rfl, written' true false more fun _ => stopped,
          ← List.append_assoc, List.cons_append, List.takeWhile_append_dropWhile]
  · obtain ⟨mark, cut⟩ := mark_of_spelled (h.1 c List.mem_cons_self) hc
    have hrest : rest ≠ [] := by
      rintro rfl
      exact hc (h.2 c rfl)
    obtain ⟨ls, cut', written'⟩ := ih _ (by omega) hrest (spelled_suffix h (List.suffix_cons _ _)) rfl
    refine ⟨.mark c :: ls, fun position x hx => ?_, fun operand spaced more _ => ?_⟩
    · have whole : position + 1 + rest.length = position + (c :: rest).length := by
        rw [List.length_cons]
        omega
      rw [List.cons_append, cut, cut' _ x hx, whole]
      rcases lexemesFrom (position + (c :: rest).length) x with e | more <;> rfl
    · rw [List.cons_append, List.cons_append, ← written' false false more nofun]
      simp [writeFrom, mark, Lexeme.text]

theorem writes_number {w : List Char} {n : Double.Numeral} (hn : Double.numeral? w = some (n, [])) : Writes w w := by
  obtain ⟨c, v, rfl, digit, spelled⟩ := numeral_spelled hn
  rw [List.append_nil]
  obtain ⟨ls, cut, written⟩ := writes_spelled (List.cons_ne_nil _ _) spelled
  refine ⟨ls, cut, fun operand spaced more => written operand spaced more fun _ d hd => ?_⟩
  cases hd
  exact beginsWord_of_isDigit digit

/-! ## Brackets -/

section Brackets

variable {s next : Scan} {offset : Nat} {before : Option Char} {cs : List Char}

/-- A reading state behind brackets that are open already. -/
def Scan.under (s : Scan) (outer : List Char) : Scan := ⟨s.closers ++ outer, s.mode⟩

theorem step_under {c : Char} (h : s.step? c = some next) (outer : List Char) :
    (s.under outer).step? c = some (next.under outer) := by
  obtain ⟨closers, mode⟩ := s
  cases mode with
  | escape quote =>
    cases h
    rfl
  | literal quote =>
    simp only [Scan.step?, Scan.under] at h ⊢
    split at h
    · cases h
      rw [if_pos ‹_›]
    rw [if_neg ‹_›]
    split at h
    · cases h
      rw [if_pos ‹_›]
    · cases h
      rw [if_neg ‹_›]
  | code =>
    simp only [Scan.step?, Scan.under] at h ⊢
    split at h
    · cases h
      rw [if_pos ‹_›]
    rw [if_neg ‹_›]
    rcases hc : closerOf? c with _ | closer
    · simp only [hc] at h ⊢
      split at h
      · rw [if_pos ‹_›]
        rcases closers with _ | ⟨closer, closers⟩
        · cases h
        · dsimp only [List.cons_append] at h ⊢
          split at h
          · cases h
            rw [if_pos ‹_›]
          · cases h
      · cases h
        rw [if_neg ‹_›]
    · simp only [hc] at h ⊢
      cases h
      rfl

/-- The bracket that is waited for closes the innermost one. -/
theorem step_closer {c d : Char} (hd : closerOf? c = some d) (outer : List Char) :
    (⟨d :: outer, .code⟩ : Scan).step? d = some ⟨outer, .code⟩ := by
  unfold closerOf? at hd
  split at hd
  all_goals cases hd
  all_goals rfl

/-- A balanced text goes up to the bracket behind it. -/
theorem closeFrom_under {b d : Char} (hd : closerOf? b = some d) (h : (surfaceFrom s offset before cs).isSome) (offset' : Nat)
    (x : List Char) : closeFrom (s.under [d]) offset' (cs ++ d :: x) = some (offset' + cs.length) := by
  induction cs generalizing s offset offset' before with
  | nil =>
    by_cases hs : s = Scan.start
    · subst hs
      have closed := step_closer hd []
      simp [closeFrom, Scan.under, Scan.start, closed]
    · simp [surfaceFrom, hs] at h
  | cons c rest ih =>
    obtain ⟨places, h⟩ := Option.isSome_iff_exists.mp h
    simp only [surfaceFrom, Option.bind_eq_bind, Option.bind_eq_some_iff] at h
    obtain ⟨next, hn, others, ho, -⟩ := h
    have waits : ¬ ((next.under [d]).closers = [] ∧ (next.under [d]).mode = .code) := by simp [Scan.under]
    simp only [List.cons_append, closeFrom, step_under hn, Option.bind_eq_bind, Option.bind_some]
    rw [if_neg waits, ih (Option.isSome_iff_exists.mpr ⟨others, ho⟩), List.length_cons]
    congr 1
    omega

/-- A balanced text leaves brackets open that were. -/
theorem surfaceFrom_under (h : (surfaceFrom s offset before cs).isSome) {outer : List Char} (ne : outer ≠ [])
    (offset' : Nat) (before' : Option Char) : surfaceFrom (s.under outer) offset' before' cs = none := by
  induction cs generalizing s offset offset' before before' with
  | nil =>
    have opened : s.under outer ≠ Scan.start := by
      intro hs
      exact ne (List.append_eq_nil_iff.mp (congrArg Scan.closers hs)).2
    simp [surfaceFrom, opened]
  | cons c rest ih =>
    obtain ⟨places, h⟩ := Option.isSome_iff_exists.mp h
    simp only [surfaceFrom, Option.bind_eq_bind, Option.bind_eq_some_iff] at h
    obtain ⟨next, hn, others, ho, -⟩ := h
    simp only [surfaceFrom, step_under hn, Option.bind_eq_bind, Option.bind_some]
    rw [ih (Option.isSome_iff_exists.mpr ⟨others, ho⟩)]
    rfl

theorem operandRest_group (h : (surface? cs).isSome) : operandRest? ('(' :: cs ++ [')']) = some [] := by
  have close : closeFrom ⟨[')'], .code⟩ 1 (cs ++ [')']) = some (1 + cs.length) := closeFrom_under (b := '(') rfl h 1 []
  simp [operandRest?, Char.isDigit, bracketRest?, matchingClose?, closerOf?, close, Nat.add_comm]

/-- What stands in brackets has no comment that goes on behind it. -/
theorem closed_group {q n : List Char} {ls : List Lexeme} (hq : lexemesFrom 0 q = .ok ls)
    (inside : (surface? (writeFrom false false ls)).isSome) (hn : normalizeChars ('(' :: q ++ [')']) = .ok n)
    (whole : (surface? n).isSome) (position : Nat) : Closed position q ls := by
  rcases lexemes_append (lexemesFrom_position hq position) with closed | ⟨-, opened⟩
  · exact closed
  · have swallowed : lexemesFrom 1 (q ++ [')']) = .ok ls := by
      refine lexemesFrom_position (opened [')'] fun c hc => ?_) 1
      rw [List.mem_singleton.mp hc]
      decide
    have mark : lexemesFrom 0 ('(' :: q ++ [')']) = (lexemesFrom 1 (q ++ [')'])).map (.mark '(' :: ·) :=
      lexemes_mark (by decide) fun h => absurd h (by decide)
    unfold normalizeChars lexemes at hn
    rw [mark, swallowed] at hn
    cases hn
    have unclosed : surface? ('(' :: writeFrom false false ls) = none := by
      have none := surfaceFrom_under inside (List.cons_ne_nil ')' []) 1 (some '(')
      show (surfaceFrom (Scan.start.under [')']) 1 (some '(') (writeFrom false false ls)).bind _ = _
      rw [none]
      rfl
    have opener : (Lexeme.mark '(').endsOperand = false := by decide
    rw [writeFrom, opener] at whole
    · rw [show surface? ((Lexeme.mark '(').text ++ writeFrom false false ls) = none from unclosed] at whole
      cases whole
    · exact nofun

theorem writes_group {q : List Char} {ls : List Lexeme} (closed : ∀ position, Closed position q ls) :
    Writes ('(' :: q ++ [')']) ('(' :: writeFrom false false ls ++ [')']) := by
  refine ⟨.mark '(' :: ls ++ [.mark ')'], fun position x hx => ?_, fun operand spaced more => ?_⟩
  · have closer : ∀ position, lexemesFrom position (')' :: x) = (lexemesFrom (position + 1) x).map (.mark ')' :: ·) :=
      fun position => lexemes_mark (by decide) fun h => absurd h (by decide)
    have stops : Stops (')' :: x) := stops_cons (by decide) (by decide)
    have length : position + 1 + q.length + 1 = position + ('(' :: q ++ [')']).length := by
      simp only [List.length_cons, List.length_append, List.length_nil]
      omega
    have opener : lexemesFrom position ('(' :: (q ++ ')' :: x)) =
        (lexemesFrom (position + 1) (q ++ ')' :: x)).map (.mark '(' :: ·) :=
      lexemes_mark (by decide) fun h => absurd h (by decide)
    rw [List.append_assoc, List.cons_append, List.singleton_append, opener, closed _ _ stops, closer, length]
    rcases lexemesFrom (position + ('(' :: q ++ [')']).length) x with e | more
    · rfl
    · simp [Except.map]
  · have opener : (Lexeme.mark '(').endsOperand = false := by decide
    have closer : (Lexeme.mark ')').endsOperand = true := by decide
    obtain ⟨operand', spaced', written⟩ := writeFrom_append false false ls
    simp [writeFrom, opener, closer, Lexeme.text, written]

end Brackets

/-! ## Operators -/

/-- An operator as it is written in a query. -/
def Connective.symbol : Connective → List Char
  | or => ['|', '|']
  | and => ['&', '&']
  | binary op => op.symbol.toList

/-- Is an operator written as a word? -/
def Connective.isWord : Connective → Bool
  | binary .isIn => true
  | binary .matchText => true
  | _ => false

/-- What an operator is cut into. -/
def Connective.lexemes (c : Connective) : List Lexeme :=
  if c.isWord then [.word c.symbol] else c.symbol.map .mark

theorem symbol_marks (c : Connective) (word : c.isWord = false) :
    c.symbol ≠ [] ∧ c.symbol.all isMark = true ∧ c.symbol.tail.all (· != '/') = true ∧
      (∀ d ∈ c.symbol, (Lexeme.mark d).endsOperand = false) ∧ (Operator.connective c).text = c.symbol := by
  have marks {cs : List Char} (h : cs.all (fun d => !(Lexeme.mark d).endsOperand) = true) :
      ∀ d ∈ cs, (Lexeme.mark d).endsOperand = false := by
    intro d hd
    simpa using List.all_eq_true.mp h d hd
  rcases c with _ | _ | op
  · exact ⟨by decide, by decide, by decide, marks (by decide), by decide⟩
  · exact ⟨by decide, by decide, by decide, marks (by decide), by decide⟩
  · cases op
    case isIn => cases word
    case matchText => cases word
    all_goals exact ⟨by decide, by decide, by decide, marks (by decide), by decide⟩

theorem symbol_word (c : Connective) (word : c.isWord = true) : c.symbol ≠ [] ∧ nameAt c.symbol = c.symbol ∧
    isKeyword c.symbol = true ∧ (Operator.connective c).text = ' ' :: c.symbol ++ [' '] := by
  rcases c with _ | _ | op
  · cases word
  · cases word
  · cases op
    case isIn => decide
    case matchText => decide
    all_goals cases word

theorem lexemes_marks {cs x : List Char} (marks : cs.all isMark = true) (slashes : cs.tail.all (· != '/') = true)
    (hx : x.head? ≠ some '/') (position : Nat) :
    lexemesFrom position (cs ++ x) = (lexemesFrom (position + cs.length) x).map (cs.map .mark ++ ·) := by
  induction cs generalizing position with
  | nil => exact (map_nil_append _).symm
  | cons c rest ih =>
    obtain ⟨mark, marks⟩ := Bool.and_eq_true_iff.mp marks
    have single : c = '/' → (rest ++ x).head? ≠ some '/' := by
      intro _
      rcases rest with _ | ⟨d, rest⟩
      · exact hx
      · intro h
        cases h
        cases slashes
    have apart : rest.tail.all (· != '/') = true := by
      rcases rest with _ | ⟨d, rest⟩
      · rfl
      · exact (Bool.and_eq_true_iff.mp slashes).2
    rw [List.cons_append, lexemes_mark mark single, ih marks apart, List.length_cons, Nat.add_assoc,
      Nat.add_comm 1]
    rcases lexemesFrom (position + (rest.length + 1)) x with e | more <;> rfl

/-- Marks that end no operand are written as they are, and no word behind them is an operator. -/
theorem written_marks {cs : List Char} (ne : cs ≠ []) (h : ∀ c ∈ cs, (Lexeme.mark c).endsOperand = false)
    (operand spaced : Bool) (more : List Lexeme) :
    writeFrom operand spaced (cs.map .mark ++ more) = cs ++ writeFrom false false more := by
  induction cs generalizing operand spaced with
  | nil => exact absurd rfl ne
  | cons c rest ih =>
    obtain ⟨first, others⟩ := List.forall_mem_cons.mp h
    have step : writeFrom operand spaced ((c :: rest).map .mark ++ more) =
        c :: writeFrom false false (rest.map .mark ++ more) := by
      simp [writeFrom, first, Lexeme.text]
    rw [step]
    rcases rest with _ | ⟨d, rest⟩
    · rfl
    · rw [ih (List.cons_ne_nil _ _) others]
      rfl

/-- An operator between spaces is cut off from what follows. -/
theorem lexemes_connective (c : Connective) (position : Nat) (x : List Char) :
    lexemesFrom position (' ' :: c.symbol ++ ' ' :: x) =
      (lexemesFrom (position + (c.symbol.length + 2)) x).map (c.lexemes ++ ·) := by
  have space : ∀ position x, lexemesFrom position (' ' :: x) = lexemesFrom (position + 1) x :=
    fun _ _ => lexemes_blank (by decide) (by decide) (by decide)
  have length : position + 1 + c.symbol.length + 1 = position + (c.symbol.length + 2) := by omega
  unfold Connective.lexemes
  rcases word : c.isWord with _ | _
  · obtain ⟨-, marks, slashes, -, -⟩ := symbol_marks c word
    rw [List.cons_append, space, lexemes_marks marks slashes (by simp), space, length]
    rfl
  · obtain ⟨ne, name, -, -⟩ := symbol_word c word
    have stops : Stops (' ' :: x) := stops_cons (by decide) (by decide)
    rw [List.cons_append, space, closed_name ne name _ _ stops, space, length]
    rfl

/-- An operator is written as it stands in normal form, if it is no word or follows an operand. -/
theorem written_connective (c : Connective) {operand spaced : Bool} (h : c.isWord = true → operand = true ∧ spaced = false)
    (more : List Lexeme) : writeFrom operand spaced (c.lexemes ++ more) =
      (Operator.connective c).text ++ writeFrom c.isWord c.isWord more := by
  unfold Connective.lexemes
  rcases word : c.isWord with _ | _
  · obtain ⟨ne, -, -, marks, text⟩ := symbol_marks c word
    rw [text]
    exact written_marks ne marks operand spaced more
  · obtain ⟨-, -, keyword, text⟩ := symbol_word c word
    obtain ⟨rfl, rfl⟩ := h word
    rw [text]
    simp [writeFrom, keyword]

/-- Two operands with an operator and spaces between them. -/
theorem Writes.join {v w n m : List Char} (hv : Writes v n) (c : Connective) (hw : Writes w m) :
    Writes (v ++ (' ' :: c.symbol ++ ' ' :: w)) (n ++ ((Operator.connective c).text ++ m)) := by
  obtain ⟨first, cut, written⟩ := hv
  obtain ⟨last, cut', written'⟩ := hw
  refine ⟨first ++ (c.lexemes ++ last), fun position x hx => ?_, fun o s more => ?_⟩
  · have stops : Stops (' ' :: c.symbol ++ ' ' :: (w ++ x)) := stops_cons (by decide) (by decide)
    have text : v ++ (' ' :: c.symbol ++ ' ' :: w) ++ x = v ++ (' ' :: c.symbol ++ ' ' :: (w ++ x)) := by simp
    have length : position + v.length + (c.symbol.length + 2) + w.length =
        position + (v ++ (' ' :: c.symbol ++ ' ' :: w)).length := by
      simp only [List.length_append, List.length_cons]
      omega
    rw [text, cut _ _ stops, lexemes_connective, cut' _ _ hx, length]
    rcases lexemesFrom (position + (v ++ (' ' :: c.symbol ++ ' ' :: w)).length) x with e | more
    · rfl
    · simp [Except.map]
  · rw [List.append_assoc, List.append_assoc, written, written_connective c fun _ => ⟨rfl, rfl⟩, written', List.append_assoc, List.append_assoc]

end Groq.Query
