/-
  Groq.Proofs.Json.Tokens — the tokens of text that is written piece by piece.

  `Cuts cs rest tokens` says that these tokens are at the front of `cs` and that `rest` follows them, so
  the tokens of a text are found piece by piece (`Cuts.trans`). A number goes on for as long as it can:
  a piece is known by its tokens before whatever does not go on with a number (`Spells`).
  Proved: quoting a string spells that string (`cuts_quoted`), and the text of a whole number up to 2^53
  spells that number (`spells_integer`).
-/

import Groq.Json.Reader
import Groq.Proofs.Text.Digits

namespace Groq.Json

section Cuts

variable {cs rest rest' : List Char} {tokens tokens' : List Token} {t : Token} {c : Char}

/-- The text begins with these tokens, and the rest follows. -/
def Cuts (cs rest : List Char) (tokens : List Token) : Prop :=
  ∃ n, n + rest.length ≤ cs.length ∧
    ∀ fuel done, tokensFrom? (n + fuel) done cs = tokensFrom? fuel (tokens.reverse ++ done) rest

theorem Cuts.refl (cs : List Char) : Cuts cs cs [] :=
  ⟨0, Nat.le_of_eq (Nat.zero_add _), fun fuel done => by rw [Nat.zero_add]; rfl⟩

theorem Cuts.trans (h : Cuts cs rest tokens) (h' : Cuts rest rest' tokens') : Cuts cs rest' (tokens ++ tokens') := by
  obtain ⟨n, shorter, first⟩ := h
  obtain ⟨n', shorter', second⟩ := h'
  refine ⟨n + n', by omega, fun fuel done => ?_⟩
  rw [Nat.add_assoc, first, second, List.reverse_append, List.append_assoc]

theorem cuts_token (found : token? c cs = some (t, rest)) (visible : isSpace c = false)
    (shorter : rest.length ≤ cs.length) : Cuts (c :: cs) rest [t] := by
  refine ⟨1, by rw [List.length_cons]; omega, fun fuel done => ?_⟩
  rw [Nat.add_comm, tokensFrom?, visible, found]
  rfl

theorem cuts_spaces {spaces : List Char} (h : ∀ c ∈ spaces, isSpace c = true) (rest : List Char) :
    Cuts (spaces ++ rest) rest [] := by
  induction spaces with
  | nil => exact .refl rest
  | cons c spaces ih =>
    obtain ⟨space, others⟩ := List.forall_mem_cons.mp h
    have first : Cuts (c :: (spaces ++ rest)) (spaces ++ rest) [] := by
      refine ⟨1, Nat.le_of_eq (Nat.add_comm _ _), fun fuel done => ?_⟩
      rw [Nat.add_comm, tokensFrom?, if_pos space]
      rfl
    exact first.trans (ih others)

theorem tokens_of_cuts (h : Cuts cs [] tokens) : tokens? cs = some tokens := by
  obtain ⟨n, shorter, cut⟩ := h
  obtain ⟨fuel, enough⟩ := Nat.exists_eq_add_of_le (show n ≤ cs.length from shorter)
  unfold tokens?
  rw [enough, cut, List.append_nil, tokensFrom?, List.reverse_reverse]

/-- There is no token only where there are only spaces. -/
theorem tokensFrom_some {fuel : Nat} {done : List Token} (h : tokensFrom? fuel done cs = some tokens) :
    ∃ more, tokens = done.reverse ++ more ∧ (more = [] → ∀ c ∈ cs, isSpace c = true) := by
  -- by induction on the fuel, which goes down with each character
  induction fuel generalizing cs done with
  | zero =>
    cases cs with
    | nil => exact ⟨[], by rw [List.append_nil]; exact (Option.some.inj h).symm, fun _ => nofun⟩
    | cons => cases h
  | succ fuel ih =>
    cases cs with
    | nil => exact ⟨[], by rw [List.append_nil]; exact (Option.some.inj h).symm, fun _ => nofun⟩
    | cons c cs =>
      unfold tokensFrom? at h
      split at h
      · rename_i space
        obtain ⟨more, rfl, spaces⟩ := ih h
        exact ⟨more, rfl, fun none => List.forall_mem_cons.mpr ⟨space, spaces none⟩⟩
      · split at h
        · rename_i t rest found
          obtain ⟨more, rfl, -⟩ := ih h
          exact ⟨t :: more, by rw [List.reverse_cons, List.append_assoc]; rfl, nofun⟩
        · cases h

/-- The tokens of a text begin with those at its front; only spaces add none. -/
theorem cuts_prefix {all : List Token} (h : Cuts cs rest tokens) (found : tokens? cs = some all) :
    ∃ more, all = tokens ++ more ∧ (more = [] → ∀ c ∈ rest, isSpace c = true) := by
  obtain ⟨n, shorter, cut⟩ := h
  obtain ⟨fuel, enough⟩ := Nat.exists_eq_add_of_le (show n ≤ cs.length by omega)
  unfold tokens? at found
  rw [enough, cut, List.append_nil] at found
  obtain ⟨more, rfl, spaces⟩ := tokensFrom_some found
  exact ⟨more, by rw [List.reverse_reverse], spaces⟩

end Cuts

/-! ## Pieces -/

/-- A number does not go on here. -/
def Ends (rest : List Char) : Prop := endsNumber rest = true ∧ rest.takeWhile Char.isDigit = []

/-- Before anything that ends a number, the text is cut into these tokens. -/
def Spells (text : List Char) (tokens : List Token) : Prop := ∀ rest, Ends rest → Cuts (text ++ rest) rest tokens

/-- The character that is a token of its own. -/
def Token.mark? : Token → Option Char
  | beginArray => some '['
  | endArray => some ']'
  | beginObject => some '{'
  | endObject => some '}'
  | colon => some ':'
  | comma => some ','
  | string _ => none
  | scalar _ => none

theorem cuts_mark {c : Char} {t : Token} (h : t.mark? = some c) (rest : List Char) : Cuts (c :: rest) rest [t] := by
  cases t <;> cases h <;> exact cuts_token rfl rfl (Nat.le_refl _)

theorem ends_mark {c : Char} {t : Token} (h : t.mark? = some c) (rest : List Char) : Ends (c :: rest) := by
  cases t <;> cases h <;> exact ⟨rfl, rfl⟩

theorem spells_null : Spells "null".toList [.scalar .null] := by
  intro rest _
  change Cuts ('n' :: 'u' :: 'l' :: 'l' :: rest) rest _
  refine cuts_token rfl rfl ?_
  simp only [List.length_cons]
  omega

theorem spells_bool (b : Bool) : Spells (boolText b) [.scalar (.bool b)] := by
  intro rest _
  cases b with
  | true =>
    change Cuts ('t' :: 'r' :: 'u' :: 'e' :: rest) rest _
    refine cuts_token rfl rfl ?_
    simp only [List.length_cons]
    omega
  | false =>
    change Cuts ('f' :: 'a' :: 'l' :: 's' :: 'e' :: rest) rest _
    refine cuts_token rfl rfl ?_
    simp only [List.length_cons]
    omega

/-! ## Strings -/

theorem hexValue_code : ∀ n < 32, Text.hexValue4? '0' '0' (hexDigit (n / 16)) (hexDigit (n % 16)) = some n := by
  decide

theorem stringBody_code {c : Char} (control : c < ' ') (done rest : List Char) :
    stringBody? done (codeEscape c ++ rest) = stringBody? (c :: done) rest := by
  have small : c.toNat < 32 := control
  have code := hexValue_code c.toNat small
  have high : isHighSurrogate c.toNat = false := by simp [isHighSurrogate]; omega
  have low : isLowSurrogate c.toNat = false := by simp [isLowSurrogate]; omega
  change stringBody? done ('\\' :: 'u' :: '0' :: '0' :: _ :: _ :: rest) = _
  rw [stringBody?, code]
  dsimp only
  rw [high, low, Char.ofNat_toNat]
  rfl

theorem stringBody_escaped (c : Char) (done rest : List Char) :
    stringBody? done (escaped c ++ rest) = stringBody? (c :: done) rest := by
  unfold escaped
  split
  case h_8 quote backslash _ _ _ _ _ =>
    split
    · rename_i control
      exact stringBody_code control done rest
    · rename_i plain
      rw [List.cons_append, List.nil_append, stringBody?]
      · exact if_neg plain
      · exact quote
      · rintro _ _ _ _ _ rfl
        exact absurd rfl backslash
      · rintro _ _ rfl
        exact absurd rfl backslash
  all_goals rfl

theorem stringBody_body (cs done rest : List Char) :
    stringBody? done (cs.flatMap escaped ++ '"' :: rest) = some (done.reverse ++ cs, rest) := by
  induction cs generalizing done with
  | nil =>
    rw [List.append_nil]
    rfl
  | cons c cs ih =>
    rw [List.flatMap_cons, List.append_assoc, stringBody_escaped, ih, List.reverse_cons, List.append_assoc]
    rfl

/-- Quoting a string spells it, whatever follows. -/
theorem cuts_quoted (s : String) (rest : List Char) : Cuts (quoted s ++ rest) rest [.string s] := by
  have body : token? '"' (s.toList.flatMap escaped ++ '"' :: rest) = some (.string s, rest) := by
    change (stringBody? [] _).map _ = _
    rw [stringBody_body]
    exact congrArg some (Prod.ext (congrArg Token.string String.ofList_toList) rfl)
  have text : quoted s ++ rest = '"' :: (s.toList.flatMap escaped ++ '"' :: rest) := by
    unfold quoted
    rw [List.cons_append, List.cons_append, List.append_assoc]
    rfl
  rw [text]
  refine cuts_token body rfl ?_
  rw [List.length_append, List.length_cons]
  omega

/-! ## Numbers -/

theorem takeDigits_ends {digits rest : List Char} (h : ∀ c ∈ digits, c.isDigit = true) (ends : Ends rest) :
    Text.takeDigits (digits ++ rest) = (digits, rest) := by
  have rest_none := ends.2
  have rest_all := List.takeWhile_append_dropWhile (p := Char.isDigit) (l := rest)
  rw [rest_none] at rest_all
  unfold Text.takeDigits
  rw [List.takeWhile_append_of_pos h, List.dropWhile_append_of_pos h, rest_none, List.append_nil]
  exact congrArg _ rest_all

theorem no_fraction {rest : List Char} (ends : Ends rest) : Double.fraction? rest = none := by
  unfold Double.fraction?
  split
  · cases ends.1
  · rfl

theorem no_exponent {rest : List Char} (ends : Ends rest) : Double.exponent? rest = none := by
  cases rest with
  | nil => rfl
  | cons c rest =>
    have others := ends.1
    unfold endsNumber at others
    unfold Double.exponent?
    dsimp only
    rw [if_neg]
    rintro (rfl | rfl)
    · cases others
    · cases others

theorem toDigits_first {n : Nat} (some : n ≠ 0) (rest : List Char) : Nat.toDigits 10 n ≠ '0' :: rest := by
  induction n using Nat.strongRecOn generalizing rest with
  | _ n ih =>
    rw [Nat.toDigits_eq_if (by decide)]
    split
    · rename_i small
      have digit : ∀ n < 10, n ≠ 0 → n.digitChar ≠ '0' := by decide
      exact fun h => digit n small some (List.cons.inj h).1
    · rename_i large
      have higher := ih (n / 10) (Nat.div_lt_self (by omega) (by decide)) (by omega)
      cases first : Nat.toDigits 10 (n / 10) with
      | nil => exact absurd first Nat.toDigits_ne_nil
      | cons c cs =>
        rintro ⟨⟩
        exact higher cs first

theorem no_leading_zero (n : Nat) : hasLeadingZero (Nat.toDigits 10 n) = false := by
  by_cases none : n = 0
  · subst none
    rfl
  · unfold hasLeadingZero
    split
    · rename_i digits
      exact absurd digits (toDigits_first none _)
    · rfl

/-- The digits of a number are read as that number. -/
theorem number_toDigits {negative : Bool} {n : Nat} {j : Json} {rest : List Char} (ends : Ends rest)
    (h : ofNumeral? negative ⟨Nat.toDigits 10 n, [], none⟩ = some j) :
    number? negative (Nat.toDigits 10 n ++ rest) = some (j, rest) := by
  have digits : ∀ c ∈ Nat.toDigits 10 n, c.isDigit = true := fun _ =>
    Nat.isDigit_of_mem_toDigits (by decide) (Nat.le_refl 10)
  have numeral :
      Double.numeral? (Nat.toDigits 10 n ++ rest) = some (⟨Nat.toDigits 10 n, [], none⟩, rest) := by
    unfold Double.numeral?
    rw [takeDigits_ends digits ends]
    dsimp only
    rw [if_neg Nat.toDigits_ne_nil, no_fraction ends, Option.getD_none]
    dsimp only
    rw [no_exponent ends]
  unfold number?
  rw [numeral]
  change (if _ then none else _) = _
  rw [if_neg, h]
  · rfl
  · rintro (zero | goes)
    · rw [no_leading_zero n] at zero
      cases zero
    · rw [ends.1] at goes
      cases goes

theorem token_digit {c : Char} (h : c.isDigit = true) (rest : List Char) :
    token? c rest = (number? false (c :: rest)).map fun (j, rest) => (.scalar j, rest) := by
  unfold token?
  split
  case h_12 => rfl
  all_goals cases h

theorem isSpace_digit {c : Char} (h : c.isDigit = true) : isSpace c = false := by
  unfold isSpace
  simp only [Bool.or_eq_false_iff, decide_eq_false_iff_not]
  refine ⟨⟨⟨?_, ?_⟩, ?_⟩, ?_⟩
  all_goals
    rintro rfl
    cases h

theorem integerText_ofNat (n : Nat) : integerText (Int.ofNat n) = Nat.toDigits 10 n := String.toList_ofList

theorem integerText_negSucc (n : Nat) : integerText (Int.negSucc n) = '-' :: Nat.toDigits 10 (n + 1) := by
  change ("-" ++ String.ofList (Nat.toDigits 10 (n + 1))).toList = _
  rw [String.toList_append]
  exact congrArg (['-'] ++ ·) String.toList_ofList

/-- The text of a whole number spells it. -/
theorem spells_integer {n : Int} (h : n.natAbs ≤ Nat.pow 2 53) : Spells (integerText n) [.scalar (.integer n)] := by
  intro rest ends
  cases n with
  | ofNat n =>
    have value : ofNumeral? false ⟨Nat.toDigits 10 n, [], none⟩ = some (.integer n) := by
      have fits : n < Nat.pow 2 64 := Nat.lt_of_le_of_lt h (by decide)
      unfold ofNumeral?
      rw [Text.decimalValue_toDigits, if_pos ⟨rfl, rfl, fits⟩]
    have found := number_toDigits ends value
    rw [integerText_ofNat]
    cases digits : Nat.toDigits 10 n with
    | nil => exact absurd digits Nat.toDigits_ne_nil
    | cons c cs =>
      have digit : c.isDigit = true :=
        Nat.isDigit_of_mem_toDigits (by decide) (Nat.le_refl 10) (digits ▸ List.mem_cons_self)
      rw [digits] at found
      rw [List.cons_append] at found ⊢
      refine cuts_token (by rw [token_digit digit, found]; rfl) (isSpace_digit digit) ?_
      rw [List.length_append]
      omega
  | negSucc n =>
    have value : ofNumeral? true ⟨Nat.toDigits 10 (n + 1), [], none⟩ = some (.integer (Int.negSucc n)) := by
      have fits : n + 1 ≤ Nat.pow 2 63 := Nat.le_trans h (by decide)
      unfold ofNumeral?
      rw [Text.decimalValue_toDigits, if_neg (by rintro ⟨-, ⟨⟩, -⟩), if_pos ⟨rfl, rfl, Nat.succ_pos n, fits⟩]
      rfl
    have found := number_toDigits ends value
    have token :
        token? '-' (Nat.toDigits 10 (n + 1) ++ rest) = some (.scalar (.integer (Int.negSucc n)), rest) := by
      change (number? true _).map _ = _
      rw [found]
      rfl
    rw [integerText_negSucc, List.cons_append]
    refine cuts_token token rfl ?_
    rw [List.length_append]
    omega

end Groq.Json
