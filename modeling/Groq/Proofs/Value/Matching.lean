/-
  Groq.Proofs.Value.Matching — what the operator `match` answers.

  The scan for words finds the runs of characters that cannot be made longer (`mem_runsFrom`). A term is met by taking
  each part between its stars where it stands first: what is left is then the longest there can be, so nothing
  is missed (`matchesParts_iff`). A term split at its stars and joined again with `.*` is the term itself with
  `.*` for each star, and words have no line ends, at which `.*` would stop (`accepts_regex`).
  Proved: a text matches when there is a term and every term becomes some word with characters put for its
  stars (`textMatch_globs`).
-/

import Groq.Proofs.Fields
import Groq.Value.Arithmetic
import Groq.Value.TextMatch

namespace Groq.Text

/-! ## Line ends -/

theorem ofNat_code (n : Nat) : (Char.ofNat n).toNat = n ∨ (Char.ofNat n).toNat = 0 := by
  by_cases valid : n.isValidChar
  · rw [Char.ofNat, dif_pos valid]
    exact .inl rfl
  · rw [Char.ofNat, dif_neg valid]
    exact .inr rfl

theorem ofNat_ne_newline {n : Nat} (ne : n ≠ 10) : Char.ofNat n ≠ '\n' := by
  intro eq
  have code : (Char.ofNat n).toNat = 10 := congrArg Char.toNat eq
  rcases ofNat_code n with same | zero <;> omega

/-- Runs that move nothing down to `target` leave it to itself. -/
theorem moved_ne {n target : Nat} {runs : List CaseRun} (ne : n ≠ target)
    (above : ∀ r ∈ runs, target < r.first + r.distance) : moved runs n ≠ target := by
  induction runs with
  | nil => exact ne
  | cons r runs ih =>
    have first := above r List.mem_cons_self
    have others := ih fun q mem => above q (List.mem_cons_of_mem r mem)
    simp only [moved]
    split
    · exact ne
    · split
      · omega
      · exact others

theorem lowerRuns_above : ∀ r ∈ lowerRuns, (10 : Nat) < r.first + r.distance := by decide +kernel

theorem lowerExpansions_above : ∀ entry ∈ lowerExpansions, ∀ code ∈ entry.2, code ≠ 10 := by decide

theorem newline_not_mem_lowerChar {c : Char} (ne : c ≠ '\n') : '\n' ∉ lowerChar c := by
  have code : c.toNat ≠ 10 := fun eq => ne (Char.toNat_inj.mp eq)
  unfold lowerChar mapCase
  split
  · rename_i codes found
    intro mem
    obtain ⟨n, listed, eq⟩ := List.mem_map.mp mem
    exact ofNat_ne_newline (lowerExpansions_above _ (Fields.mem_of_lookup found) n listed) eq
  · intro mem
    exact ofNat_ne_newline (moved_ne code lowerRuns_above) (List.mem_singleton.mp mem).symm

/-- Lower case brings in no line ends. -/
theorem newline_not_mem_lowerAfter {cs : List Char} (line : '\n' ∉ cs) (before : List Char) :
    '\n' ∉ lowerAfter before cs := by
  induction cs generalizing before with
  | nil => exact List.not_mem_nil
  | cons c rest ih =>
    rw [List.mem_cons, not_or] at line
    simp only [lowerAfter, List.mem_append, not_or]
    refine ⟨?_, ih line.2 _⟩
    by_cases sigma : c = 'Σ'
    · rw [if_pos sigma]
      split <;> decide
    · rw [if_neg sigma]
      exact newline_not_mem_lowerChar (Ne.symm line.1)

end Groq.Text

namespace Groq.Value

/-! ## Runs -/

section Runs

variable {keep : Char → Bool} {c : Char} {run front rest : List Char}

variable (keep run) in
/-- Characters to keep that stand in a text between others, or at its ends. -/
def MaximalRun (cs : List Char) : Prop :=
  run ≠ [] ∧ (∀ c ∈ run, keep c = true) ∧
    ∃ before after, cs = before ++ (run ++ after) ∧ (∀ c ∈ before.getLast?, keep c = false) ∧
      ∀ c ∈ after.head?, keep c = false

/-- A text of characters to keep has itself as its only run. -/
theorem maximalRun_kept (kept : ∀ c ∈ front, keep c = true) :
    MaximalRun keep run front ↔ run ≠ [] ∧ run = front := by
  constructor
  · rintro ⟨nonempty, -, before, after, rfl, left, right⟩
    have noBefore : before = [] := by
      rcases before.eq_nil_or_concat with nil | ⟨init, d, rfl⟩
      · exact nil
      · have stops := left d (by simp)
        have goes := kept d (by simp)
        exact absurd (goes.symm.trans stops) nofun
    have noAfter : after = [] := by
      cases after with
      | nil => rfl
      | cons d after =>
        have stops := right d rfl
        have goes := kept d (by simp)
        exact absurd (goes.symm.trans stops) nofun
    rw [noBefore, noAfter]
    exact ⟨nonempty, by simp⟩
  · rintro ⟨nonempty, rfl⟩
    exact ⟨nonempty, kept, [], [], by simp, by simp, by simp⟩

/-- A character outside a part of a text stands before or after it. -/
theorem split_outside {before after : List Char} (split : front ++ c :: rest = before ++ (run ++ after))
    (nonempty : run ≠ []) (outside : c ∉ run) :
    (∃ gap, front = before ++ (run ++ gap) ∧ after = gap ++ c :: rest) ∨
      ∃ gap, before = front ++ c :: gap ∧ rest = gap ++ (run ++ after) := by
  rcases List.append_eq_append_iff.mp split with ⟨gap, rfl, behind⟩ | ⟨within, rfl, behind⟩
  · cases gap with
    | nil =>
      obtain ⟨d, run, rfl⟩ := List.exists_cons_of_ne_nil nonempty
      cases behind
      exact absurd List.mem_cons_self outside
    | cons d gap =>
      cases behind
      exact .inr ⟨gap, rfl, rfl⟩
  · rcases List.append_eq_append_iff.mp behind with ⟨gap, rfl, rfl⟩ | ⟨end', rfl, ending⟩
    · exact .inl ⟨gap, rfl, rfl⟩
    · cases end' with
      | nil => exact .inl ⟨[], by simp, ending.symm⟩
      | cons d end' =>
        cases ending
        exact absurd (by simp) outside

/-- No run goes over a character that is not kept. -/
theorem maximalRun_break (stops : keep c = false) :
    MaximalRun keep run (front ++ c :: rest) ↔ MaximalRun keep run front ∨ MaximalRun keep run rest := by
  constructor
  · rintro ⟨nonempty, kept, before, after, split, left, right⟩
    have outside : c ∉ run := by
      intro mem
      exact absurd ((kept c mem).symm.trans stops) nofun
    rcases split_outside split nonempty outside with ⟨gap, rfl, rfl⟩ | ⟨gap, rfl, rfl⟩
    · refine .inl ⟨nonempty, kept, before, gap, rfl, left, ?_⟩
      cases gap with
      | nil => nofun
      | cons d gap => exact right
    · refine .inr ⟨nonempty, kept, gap, after, rfl, ?_, right⟩
      intro d last
      exact left d (by simp [List.getLast?_append, List.getLast?_cons, Option.mem_def.mp last])
  · rintro (⟨nonempty, kept, before, after, rfl, left, right⟩ | ⟨nonempty, kept, before, after, rfl, left, right⟩)
    · refine ⟨nonempty, kept, before, after ++ c :: rest, by simp, left, ?_⟩
      cases after with
      | nil =>
        rintro _ ⟨⟩
        exact stops
      | cons d after => exact right
    · refine ⟨nonempty, kept, front ++ c :: before, after, by simp, ?_, right⟩
      intro d last
      cases ending : before.getLast? with
      | none =>
        simp [List.getLast?_append, List.getLast?_cons, ending] at last
        exact last ▸ stops
      | some e =>
        simp [List.getLast?_append, List.getLast?_cons, ending] at last
        exact last ▸ left e ending

/-- By induction on what is left of the text; the run that is open belongs to it. -/
theorem mem_runsFrom {opened : List Char} (kept : ∀ c ∈ opened.reverse, keep c = true) (cs : List Char) :
    run ∈ runsFrom keep opened cs ↔ MaximalRun keep run (opened.reverse ++ cs) := by
  induction cs generalizing opened with
  | nil =>
    rw [List.append_nil, maximalRun_kept kept]
    by_cases closed : opened = []
    · simp [runsFrom, closed]
    · simp only [runsFrom, if_neg closed, List.mem_singleton]
      constructor
      · rintro rfl
        exact ⟨mt List.reverse_eq_nil_iff.mp closed, rfl⟩
      · exact And.right
  | cons c rest ih =>
    by_cases goes : keep c = true
    · have keptMore : ∀ d ∈ (c :: opened).reverse, keep d = true := by
        intro d mem
        rcases List.mem_cons.mp (List.mem_reverse.mp mem) with rfl | mem
        · exact goes
        · exact kept d (List.mem_reverse.mpr mem)
      rw [runsFrom, if_pos goes, ih keptMore, List.reverse_cons, List.append_assoc, List.singleton_append]
    · have stops : keep c = false := Bool.eq_false_iff.mpr goes
      have inside : run ∈ runsFrom keep [] rest ↔ MaximalRun keep run rest := ih nofun
      rw [runsFrom, if_neg goes, maximalRun_break stops, maximalRun_kept kept, ← inside]
      by_cases closed : opened = []
      · rw [if_pos closed, closed]
        simp
      · have openRun : run ≠ [] ∧ run = opened.reverse ↔ run = opened.reverse := by
          constructor
          · exact And.right
          · rintro rfl
            exact ⟨mt List.reverse_eq_nil_iff.mp closed, rfl⟩
        rw [if_neg closed, List.mem_cons, openRun]

theorem mem_runs (cs : List Char) : run ∈ runsFrom keep [] cs ↔ MaximalRun keep run cs :=
  mem_runsFrom (by simp) cs

/-- The runs on both sides of a character that is not kept are apart. -/
theorem runsFrom_break (stops : keep c = false) (opened front rest : List Char) :
    runsFrom keep opened (front ++ c :: rest) = runsFrom keep opened front ++ runsFrom keep [] rest := by
  induction front generalizing opened with
  | nil =>
    by_cases closed : opened = []
    · simp [runsFrom, stops, closed]
    · simp [runsFrom, stops, closed]
  | cons d front ih =>
    by_cases goes : keep d = true
    · simp only [List.cons_append, runsFrom, if_pos goes]
      exact ih _
    · by_cases closed : opened = []
      · simp only [List.cons_append, runsFrom, if_neg goes, if_pos closed]
        exact ih _
      · simp only [List.cons_append, runsFrom, if_neg goes, if_neg closed]
        rw [ih]

end Runs

/-! ## Wildcards -/

/-- The word comes from the term when each star becomes some characters, even none. -/
inductive Glob : List Char → List Char → Prop
  | nil : Glob [] []
  | char {c : Char} {term word : List Char} : c ≠ '*' → Glob term word → Glob (c :: term) (c :: word)
  | star {term word : List Char} (inserted : List Char) : Glob term word → Glob ('*' :: term) (inserted ++ word)

/-- The text is made of the parts in their order, with any characters before each. -/
inductive Spread : List (List Char) → List Char → Prop
  | nil : Spread [] []
  | cons {parts : List (List Char)} {rest : List Char} (gap part : List Char) :
      Spread parts rest → Spread (part :: parts) (gap ++ (part ++ rest))

section Wildcards

variable {part cs rest word : List Char} {parts : List (List Char)}

theorem Spread.behind (extra : List Char) (h : Spread (part :: parts) cs) : Spread (part :: parts) (extra ++ cs) := by
  cases h with
  | cons gap _ rest => exact List.append_assoc extra gap _ ▸ .cons (extra ++ gap) part rest

theorem after_sound (h : after? part cs = some rest) : ∃ gap, cs = gap ++ (part ++ rest) := by
  induction cs with
  | nil =>
    simp only [after?, Option.ite_none_right_eq_some, Option.some.injEq] at h
    obtain ⟨rfl, rfl⟩ := h
    exact ⟨[], rfl⟩
  | cons c cs ih =>
    by_cases here : part.isPrefixOf (c :: cs) = true
    · rw [after?, if_pos here] at h
      cases h
      exact ⟨[], (List.prefix_iff_eq_append.mp (List.isPrefixOf_iff_prefix.mp here)).symm⟩
    · rw [after?, if_neg here] at h
      obtain ⟨gap, rfl⟩ := ih h
      exact ⟨c :: gap, rfl⟩

/-- What follows the first place is the longest that follows any. -/
theorem after_longest (gap part rest : List Char) :
    ∃ extra, after? part (gap ++ (part ++ rest)) = some (extra ++ rest) := by
  induction gap with
  | nil =>
    cases whole : part ++ rest with
    | nil =>
      obtain ⟨rfl, rfl⟩ := List.append_eq_nil_iff.mp whole
      exact ⟨[], rfl⟩
    | cons c cs =>
      have here : part.isPrefixOf (c :: cs) = true := by
        rw [List.isPrefixOf_iff_prefix, ← whole]
        exact List.prefix_append part rest
      refine ⟨[], ?_⟩
      rw [List.nil_append, after?, if_pos here, ← whole, List.drop_left, List.nil_append]
  | cons c gap ih =>
    by_cases here : part.isPrefixOf (c :: (gap ++ (part ++ rest))) = true
    · refine ⟨(c :: (gap ++ part)).drop part.length, ?_⟩
      have short : part.length ≤ (c :: (gap ++ part)).length := by simp; omega
      rw [List.cons_append, after?, if_pos here, ← List.append_assoc, ← List.cons_append,
        List.drop_append_of_le_length short]
    · rw [List.cons_append, after?, if_neg here]
      exact ih

theorem matchesParts_cons (part next : List Char) (parts : List (List Char)) (cs : List Char) :
    matchesParts (part :: next :: parts) cs = (after? part cs).any (matchesParts (next :: parts)) := by
  rw [matchesParts]
  · cases after? part cs <;> rfl
  · nofun

/-- By induction on the parts: when a text can be spread over them at all, it can with the first of them at
    the first place. -/
theorem matchesParts_iff (parts : List (List Char)) (cs : List Char) : matchesParts parts cs = true ↔ Spread parts cs := by
  induction parts generalizing cs with
  | nil =>
    constructor
    · intro h
      cases of_decide_eq_true h
      exact .nil
    · rintro ⟨⟩
      rfl
  | cons part parts ih =>
    cases parts with
    | nil =>
      show part.isSuffixOf cs = true ↔ _
      rw [List.isSuffixOf_iff_suffix]
      constructor
      · rintro ⟨gap, rfl⟩
        simpa using Spread.cons gap part .nil
      · rintro (_ | ⟨gap, _, ⟨⟩⟩)
        exact ⟨gap, by simp⟩
    | cons next parts =>
      rw [matchesParts_cons, Option.any_eq_true]
      constructor
      · rintro ⟨rest, found, h⟩
        obtain ⟨gap, rfl⟩ := after_sound found
        exact .cons gap part ((ih rest).mp h)
      · rintro (_ | ⟨gap, _, spread⟩)
        obtain ⟨extra, found⟩ := after_longest gap part _
        exact ⟨_, found, (ih _).mpr (spread.behind extra)⟩

theorem glob_star_iff {term : List Char} :
    Glob ('*' :: term) word ↔ ∃ inserted behind, word = inserted ++ behind ∧ Glob term behind := by
  constructor
  · intro h
    cases h with
    | char ne _ => exact absurd rfl ne
    | star inserted h => exact ⟨inserted, _, rfl, h⟩
  · rintro ⟨inserted, behind, rfl, h⟩
    exact .star inserted h

theorem glob_char_iff {c : Char} {term : List Char} (ne : c ≠ '*') :
    Glob (c :: term) word ↔ ∃ behind, word = c :: behind ∧ Glob term behind := by
  constructor
  · intro h
    cases h with
    | char _ h => exact ⟨_, rfl, h⟩
    | star _ _ => exact absurd rfl ne
  · rintro ⟨behind, rfl, h⟩
    exact .char ne h

/-- By induction on the term, whose first star ends its first part. -/
theorem glob_iff_spread (term word : List Char) :
    Glob term word ↔ ∃ rest, word = (starParts term).1 ++ rest ∧ Spread (starParts term).2 rest := by
  induction term generalizing word with
  | nil =>
    constructor
    · rintro ⟨⟩
      exact ⟨[], rfl, .nil⟩
    · rintro ⟨_, rfl, ⟨⟩⟩
      exact .nil
  | cons c term ih =>
    by_cases star : c = '*'
    · subst star
      rw [glob_star_iff]
      constructor
      · rintro ⟨inserted, behind, rfl, h⟩
        obtain ⟨rest, rfl, spread⟩ := (ih behind).mp h
        exact ⟨_, rfl, .cons inserted _ spread⟩
      · rintro ⟨_, rfl, spread⟩
        obtain _ | ⟨gap, _, spread⟩ := spread
        exact ⟨gap, _, rfl, (ih _).mpr ⟨_, rfl, spread⟩⟩
    · rw [glob_char_iff star]
      simp only [starParts, if_neg star]
      constructor
      · rintro ⟨behind, rfl, h⟩
        obtain ⟨rest, rfl, spread⟩ := (ih behind).mp h
        exact ⟨rest, rfl, spread⟩
      · rintro ⟨rest, rfl, spread⟩
        exact ⟨_, rfl, (ih _).mpr ⟨rest, rfl, spread⟩⟩

theorem matchesTerm_iff (term word : List Char) : matchesTerm term word = true ↔ Glob term word := by
  rw [glob_iff_spread, matchesTerm, Bool.and_eq_true, List.isPrefixOf_iff_prefix, matchesParts_iff]
  constructor
  · rintro ⟨⟨rest, rfl⟩, spread⟩
    rw [List.drop_left] at spread
    exact ⟨rest, rfl, spread⟩
  · rintro ⟨rest, rfl, spread⟩
    exact ⟨List.prefix_append _ rest, List.drop_left.symm ▸ spread⟩

end Wildcards

/-! ## Regular expressions -/

/-- A character that stands for itself, or `.*`: any characters but line ends. -/
inductive Piece where
  | char (c : Char)
  | anything
  deriving DecidableEq, Repr

/-- The expression, anchored at both ends, accepts the text. -/
inductive Accepts : List Piece → List Char → Prop
  | nil : Accepts [] []
  | char {c : Char} {pieces : List Piece} {cs : List Char} : Accepts pieces cs → Accepts (.char c :: pieces) (c :: cs)
  | anything {pieces : List Piece} {cs run : List Char} :
      '\n' ∉ run → Accepts pieces cs → Accepts (.anything :: pieces) (run ++ cs)

/-- The term split at its stars, with `.*` between its parts. -/
def regex (term : List Char) : List Piece :=
  [Piece.anything].intercalate (((starParts term).1 :: (starParts term).2).map (·.map Piece.char))

theorem regex_star (term : List Char) : regex ('*' :: term) = .anything :: regex term := by
  simp [regex, starParts, List.intercalate]

theorem regex_char {c : Char} (ne : c ≠ '*') (term : List Char) : regex (c :: term) = .char c :: regex term := by
  cases more : (starParts term).2 <;> simp [regex, starParts, ne, more, List.intercalate]

/-- In a text without line ends `.*` is any characters, as a star is. -/
theorem accepts_regex {word : List Char} (line : '\n' ∉ word) (term : List Char) :
    Accepts (regex term) word ↔ Glob term word := by
  induction term generalizing word with
  | nil =>
    constructor
    · rintro ⟨⟩
      exact .nil
    · rintro ⟨⟩
      exact .nil
  | cons c term ih =>
    by_cases star : c = '*'
    · rw [star, regex_star, glob_star_iff]
      constructor
      · rintro (_ | _ | ⟨-, accepted⟩)
        rename_i behind inserted
        have behindLine : '\n' ∉ behind := fun mem => line (List.mem_append_right inserted mem)
        exact ⟨inserted, behind, rfl, (ih behindLine).mp accepted⟩
      · rintro ⟨inserted, behind, rfl, h⟩
        rw [List.mem_append, not_or] at line
        exact .anything line.1 ((ih line.2).mpr h)
    · rw [regex_char star, glob_char_iff star]
      constructor
      · rintro (_ | accepted)
        rw [List.mem_cons, not_or] at line
        exact ⟨_, rfl, (ih line.2).mp accepted⟩
      · rintro ⟨behind, rfl, h⟩
        rw [List.mem_cons, not_or] at line
        exact .char ((ih line.2).mpr h)

/-! ## The operator -/

/-- A string or an array: what can be matched, and matched against. -/
def Textual (v : Value) : Prop := (∃ s, v = string s) ∨ ∃ items, v = array items

/-- A string is a text of its own; an array has those of its items that are strings. -/
inductive HasText : Value → String → Prop
  | itself (s : String) : HasText (string s) s
  | item {items : List Value} {s : String} : string s ∈ items → HasText (array items) s

/-- A maximal run in one of the texts, in lower case. -/
def HasToken (keep : Char → Bool) (v : Value) (token : List Char) : Prop :=
  ∃ s run, v.HasText s ∧ MaximalRun keep run s.toList ∧ token = Text.lower run

def HasWord : Value → List Char → Prop := HasToken Text.isAlphanumeric

def HasTerm : Value → List Char → Prop := HasToken fun c => Text.isAlphanumeric c || c = '*'

section Operator

variable {v : Value} {keep : Char → Bool} {texts : List String} {token : List Char}

theorem texts_of_textual (h : v.Textual) : ∃ texts, v.texts? = some texts ∧ ∀ s, s ∈ texts ↔ v.HasText s := by
  rcases h with ⟨s, rfl⟩ | ⟨items, rfl⟩
  · refine ⟨[s], rfl, fun s' => ?_⟩
    rw [List.mem_singleton]
    constructor
    · rintro rfl
      exact .itself s'
    · rintro ⟨⟩
      rfl
  · refine ⟨items.filterMap string?, rfl, fun s => ?_⟩
    rw [List.mem_filterMap]
    constructor
    · rintro ⟨item, mem, is⟩
      cases item with
      | string s' =>
        cases is
        exact .item mem
      | _ => cases is
    · rintro (_ | mem)
      exact ⟨string s, mem, rfl⟩

theorem textMatch_texts {text pattern : Value} {patterns : List String} (found : text.texts? = some texts)
    (foundPatterns : pattern.texts? = some patterns) :
    text.textMatch pattern = bool (matchesAll (texts.flatMap (words ·.toList)) (patterns.flatMap (terms ·.toList))) := by
  rw [textMatch, found, foundPatterns]

theorem mem_tokens (held : ∀ s, s ∈ texts ↔ v.HasText s) :
    token ∈ texts.flatMap (fun s => (runsFrom keep [] s.toList).map Text.lower) ↔ HasToken keep v token := by
  simp only [List.mem_flatMap, List.mem_map]
  constructor
  · rintro ⟨s, mem, run, found, rfl⟩
    exact ⟨s, run, (held s).mp mem, (mem_runs _).mp found, rfl⟩
  · rintro ⟨s, run, has, maximal, rfl⟩
    exact ⟨s, (held s).mpr has, run, (mem_runs _).mpr maximal, rfl⟩

theorem matchesAll_iff (words terms : List (List Char)) :
    matchesAll words terms = true ↔
      (∃ term, term ∈ terms) ∧ ∀ term ∈ terms, ∃ word ∈ words, Glob term word := by
  have nonempty : terms ≠ [] ↔ ∃ term, term ∈ terms :=
    ⟨List.exists_mem_of_ne_nil terms, fun ⟨_, mem⟩ => List.ne_nil_of_mem mem⟩
  simp only [matchesAll, Bool.and_eq_true, bne_iff_ne, List.all_eq_true, List.any_eq_true, matchesTerm_iff, nonempty]

/-- Words are made of letters and digits. -/
theorem HasWord.line {word : List Char} (h : v.HasWord word) : '\n' ∉ word := by
  obtain ⟨s, run, -, ⟨-, kept, -⟩, rfl⟩ := h
  have line : '\n' ∉ run := fun mem => absurd (kept _ mem) (by decide)
  exact Text.newline_not_mem_lowerAfter line []

theorem terms_space (p₁ p₂ : List Char) : terms (p₁ ++ ' ' :: p₂) = terms p₁ ++ terms p₂ := by
  unfold terms
  rw [runsFrom_break (by decide), List.map_append]

end Operator

/-- A string or array against another: true when there is a term and each, with characters put for its stars, is
    some word. That is what the term accepts as an expression with `.*` for its stars. Two patterns are as good as
    one with a space between them. -/
theorem textMatch_globs (text : Value) :
    (∀ pattern : Value, text.Textual → pattern.Textual →
      ∃ answer, text.textMatch pattern = bool answer ∧
        (answer = true ↔ (∃ term, pattern.HasTerm term) ∧
          ∀ term, pattern.HasTerm term → ∃ word, text.HasWord word ∧ Glob term word)) ∧
    (∀ term word, text.HasWord word → (Accepts (regex term) word ↔ Glob term word)) ∧
    ∀ p₁ p₂, text.textMatch (array [string p₁, string p₂]) =
      text.textMatch (((string p₁).add (string " ")).add (string p₂)) := by
  refine ⟨fun pattern textual patternTextual => ?_, fun term word h => accepts_regex h.line term, fun p₁ p₂ => ?_⟩
  · obtain ⟨texts, found, held⟩ := texts_of_textual textual
    obtain ⟨patterns, foundPatterns, heldPatterns⟩ := texts_of_textual patternTextual
    refine ⟨_, textMatch_texts found foundPatterns, ?_⟩
    have wordIff (word : List Char) : word ∈ texts.flatMap (words ·.toList) ↔ text.HasWord word := mem_tokens held
    have termIff (term : List Char) : term ∈ patterns.flatMap (terms ·.toList) ↔ pattern.HasTerm term :=
      mem_tokens heldPatterns
    simp only [matchesAll_iff, wordIff, termIff]
  · have split : terms (p₁ ++ " " ++ p₂).toList = terms p₁.toList ++ terms p₂.toList := by
      rw [← terms_space]
      simp
    cases found : text.texts? with
    | none =>
      unfold textMatch
      rw [found]
    | some texts =>
      have two : (array [string p₁, string p₂]).texts? = some [p₁, p₂] := rfl
      have one : (((string p₁).add (string " ")).add (string p₂)).texts? = some [p₁ ++ " " ++ p₂] := rfl
      rw [textMatch_texts found two, textMatch_texts found one]
      simp only [List.flatMap_cons, List.flatMap_nil, List.append_nil, split]

theorem textMatch_globs_parts :
    (string "Hello World").Textual ∧ (string "w*d H*").Textual ∧
      (string "w*d H*").HasTerm ['w', '*', 'd'] ∧ ∃ word, (string "Hello World").HasWord word ∧
        Glob ['w', '*', 'd'] word ∧ Accepts (regex ['w', '*', 'd']) word := by
  have textual (s : String) : (string s).Textual := .inl ⟨s, rfl⟩
  have term : (string "w*d H*").HasTerm ['w', '*', 'd'] := by
    refine ⟨"w*d H*", ['w', '*', 'd'], .itself _,
      ⟨by simp, ?kept, [], [' ', 'H', '*'], by decide, by simp, ?ends⟩, ?lower⟩
    case kept =>
      simp only [List.forall_mem_cons]
      exact ⟨by decide, by decide, by decide, nofun⟩
    case ends =>
      rintro _ ⟨⟩
      decide
    case lower => decide +kernel
  obtain ⟨globs, accepts, -⟩ := textMatch_globs (string "Hello World")
  obtain ⟨answer, eq, holds⟩ := globs (string "w*d H*") (textual _) (textual _)
  have matched : matchesAll (["Hello World"].flatMap (words ·.toList)) (["w*d H*"].flatMap (terms ·.toList)) = true := by
    decide +kernel
  have answerTrue : answer = true := by
    rw [textMatch_texts rfl rfl, matched] at eq
    exact (Value.bool.inj eq).symm
  obtain ⟨word, has, glob⟩ := (holds.mp answerTrue).2 _ term
  exact ⟨textual _, textual _, term, word, has, glob, (accepts _ word has).mpr glob⟩

end Groq.Value
