/-
  Groq.Proofs.Bytes.Number — the length of a number in bytes.

  A numeral is digits, then a fraction, then an exponent, each of them ASCII. Its length is found
  digit by digit with the bytes behind looked up one at a time; every one that is looked up
  with certainty is there.
  Proved: the length is that of the numeral that is read from the text (`number_bytes`), and what is
  cut out at that length is the same numeral and nothing behind it.
-/

import Groq.Proofs.Bytes.Scan

namespace Groq.Query

/-! ## Digits -/

theorem takeDigits_bytes (cs : List Char) :
    Text.takeDigits (bytes cs) = ((Text.takeDigits cs).1, bytes (Text.takeDigits cs).2) := by
  obtain ⟨front, behind⟩ := run_bytes (fun _ => ascii_of_isDigit) cs
  exact Prod.ext front behind

/-- Digits that nothing goes on with. -/
theorem takeDigits_run {ds rest : List Char} (digits : ∀ c ∈ ds, c.isDigit = true)
    (stop : ∀ c, rest.head? = some c → c.isDigit = false) : Text.takeDigits (ds ++ rest) = (ds, rest) := by
  obtain ⟨front, behind⟩ := run_whole digits
  have both : _ ∧ (ds ++ rest).dropWhile Char.isDigit = _ := takeWhile_append_of_stop fun _ c tail h => stop c (by rw [h]; rfl)
  rw [front, behind] at both
  exact Prod.ext both.1 both.2

theorem digitsFrom_front (front rest : List Char) :
    digitsFrom? (front ++ rest) front.length = some (Text.takeDigits rest).1.length := by
  unfold digitsFrom?
  rw [if_pos (by simp), List.drop_left]

/-! ## Fractions -/

theorem fraction_of_head {cs : List Char} (h : cs.head? ≠ some '.') : Double.fraction? cs = none := by
  unfold Double.fraction?
  split
  · exact absurd rfl h
  · rfl

theorem fraction_bytes (cs : List Char) :
    Double.fraction? (bytes cs) = (Double.fraction? cs).map fun x => (x.1, bytes x.2) := by
  have point : ('.').toNat < 128 := by decide
  by_cases h : cs.head? = some '.'
  · obtain ⟨rest, rfl⟩ := List.head?_eq_some_iff.mp h
    rw [bytes_ascii point]
    simp only [Double.fraction?, takeDigits_bytes]
    split
    · rfl
    · rfl
  · rw [fraction_of_head h, fraction_of_head fun hb => h ((head_bytes point cs).mp hb)]
    rfl

theorem fraction_text {cs digits rest : List Char} (h : Double.fraction? cs = some (digits, rest)) :
    cs = '.' :: digits ++ rest := by
  unfold Double.fraction? at h
  split at h
  · rename_i tail
    dsimp only at h
    split at h
    · cases h
    · cases h
      rw [List.cons_append, takeDigits_append]
  · cases h

/-- A fraction that nothing goes on with. -/
theorem fraction_cut {cs digits rest x : List Char} (h : Double.fraction? cs = some (digits, rest))
    (stop : ∀ c, x.head? = some c → c.isDigit = false) : Double.fraction? ('.' :: digits ++ x) = some (digits, x) := by
  unfold Double.fraction? at h
  split at h
  · rename_i tail
    dsimp only at h
    split at h
    · cases h
    · rename_i found
      cases h
      simp only [List.cons_append, Double.fraction?, takeDigits_run (takeDigits_all tail) stop]
      rw [if_neg found]
  · cases h

theorem fractionLength_front (front rest : List Char) : fractionLength? (front ++ rest) front.length =
    some (((Double.fraction? rest).map fun x => x.1.length + 1).getD 0) := by
  have here : (front ++ rest)[front.length]? = rest.head? := by
    rw [← List.head?_drop, List.drop_left]
  have next : (front ++ rest)[front.length + 1]? = rest.tail.head? := by
    rw [← List.head?_drop, ← List.drop_drop, List.drop_left, List.drop_one]
  unfold fractionLength?
  rw [here, next]
  by_cases h : rest.head? = some '.'
  · obtain ⟨tail, rfl⟩ := List.head?_eq_some_iff.mp h
    have behind : digitsFrom? (front ++ '.' :: tail) (front.length + 1) = some (Text.takeDigits tail).1.length := by
      have shifted := digitsFrom_front (front ++ ['.']) tail
      simpa using shifted
    simp only [Double.fraction?, List.head?_cons, List.tail_cons, true_and, behind]
    rcases tail with _ | ⟨c, tail⟩
    · rfl
    · by_cases digit : c.isDigit = true
      · simp [Text.takeDigits, digit]
      · simp [Text.takeDigits, digit]
  · rw [fraction_of_head h, if_neg fun both => h both.1]
    rfl

/-! ## Exponents -/

theorem exponent_of_head {cs : List Char} (h : cs.head? ≠ some 'e' ∧ cs.head? ≠ some 'E') : Double.exponent? cs = none := by
  rcases cs with _ | ⟨c, cs⟩
  · rfl
  · have letter : ¬ (c = 'e' ∨ c = 'E') := by
      rintro (rfl | rfl)
      · exact h.1 rfl
      · exact h.2 rfl
    simp only [Double.exponent?]
    rw [if_neg letter]

theorem letter_of_head {cs : List Char} (h : ¬ (cs.head? ≠ some 'e' ∧ cs.head? ≠ some 'E')) :
    ∃ c rest, cs = c :: rest ∧ (c = 'e' ∨ c = 'E') := by
  rcases cs with _ | ⟨c, rest⟩
  · exact absurd ⟨nofun, nofun⟩ h
  · refine ⟨c, rest, rfl, ?_⟩
    simpa [or_iff_not_imp_left] using h

theorem signedExponent_bytes (negative : Bool) (cs : List Char) : Double.signedExponent? negative (bytes cs) =
    (Double.signedExponent? negative cs).map fun x => (x.1, bytes x.2) := by
  unfold Double.signedExponent?
  simp only [takeDigits_bytes]
  split
  · rfl
  · rfl

/-- The sign of an exponent, and what follows it. -/
def exponentSign : List Char → Bool × List Char
  | '+' :: rest => (false, rest)
  | '-' :: rest => (true, rest)
  | rest => (false, rest)

theorem exponentSign_plain {cs : List Char} (plus : ∀ rest, cs = '+' :: rest → False)
    (minus : ∀ rest, cs = '-' :: rest → False) : exponentSign cs = (false, cs) := by
  unfold exponentSign
  split
  · exact absurd rfl (plus _)
  · exact absurd rfl (minus _)
  · rfl

theorem exponentSign_of_head {cs : List Char} (plus : cs.head? ≠ some '+') (minus : cs.head? ≠ some '-') :
    exponentSign cs = (false, cs) := by
  apply exponentSign_plain
  · rintro rest rfl
    exact plus rfl
  · rintro rest rfl
    exact minus rfl

theorem exponent_letter {c : Char} (hc : c = 'e' ∨ c = 'E') (cs : List Char) :
    Double.exponent? (c :: cs) = Double.signedExponent? (exponentSign cs).1 (exponentSign cs).2 := by
  simp only [Double.exponent?]
  rw [if_pos hc]
  split
  · rfl
  · rfl
  · rename_i plus minus
    rw [exponentSign_plain plus minus]

theorem exponentSign_bytes (cs : List Char) :
    exponentSign (bytes cs) = ((exponentSign cs).1, bytes (exponentSign cs).2) := by
  have ascii : ('+').toNat < 128 ∧ ('-').toNat < 128 := by decide
  by_cases plus : cs.head? = some '+'
  · obtain ⟨rest, rfl⟩ := List.head?_eq_some_iff.mp plus
    rw [bytes_ascii ascii.1]
    rfl
  by_cases minus : cs.head? = some '-'
  · obtain ⟨rest, rfl⟩ := List.head?_eq_some_iff.mp minus
    rw [bytes_ascii ascii.2]
    rfl
  · rw [exponentSign_of_head plus minus, exponentSign_of_head (fun h => plus ((head_bytes ascii.1 cs).mp h))
      fun h => minus ((head_bytes ascii.2 cs).mp h)]

theorem exponent_bytes (cs : List Char) :
    Double.exponent? (bytes cs) = (Double.exponent? cs).map fun x => (x.1, bytes x.2) := by
  have ascii : ('e').toNat < 128 ∧ ('E').toNat < 128 := by decide
  by_cases h : cs.head? ≠ some 'e' ∧ cs.head? ≠ some 'E'
  · rw [exponent_of_head h, exponent_of_head ⟨fun hb => h.1 ((head_bytes ascii.1 cs).mp hb),
      fun hb => h.2 ((head_bytes ascii.2 cs).mp hb)⟩]
    rfl
  · obtain ⟨c, rest, rfl, hc⟩ := letter_of_head h
    have letter : c.toNat < 128 := by
      rcases hc with rfl | rfl
      · exact ascii.1
      · exact ascii.2
    rw [bytes_ascii letter, exponent_letter hc, exponent_letter hc, exponentSign_bytes]
    exact signedExponent_bytes _ _

theorem signedExponent_cut {negative : Bool} {cs rest : List Char} {e : Int}
    (h : Double.signedExponent? negative cs = some (e, rest)) :
    ∃ used, cs = used ++ rest ∧ Double.signedExponent? negative used = some (e, []) := by
  unfold Double.signedExponent? at h
  dsimp only at h
  split at h
  · cases h
  · rename_i found
    cases h
    have run : Text.takeDigits ((Text.takeDigits cs).1 ++ []) = _ := takeDigits_run (takeDigits_all cs) nofun
    rw [List.append_nil] at run
    refine ⟨_, (takeDigits_append cs).symm, ?_⟩
    simp only [Double.signedExponent?, run]
    rw [if_neg found]

/-- An exponent without what follows it. -/
theorem exponent_cut {cs rest : List Char} {e : Int} (h : Double.exponent? cs = some (e, rest)) :
    ∃ c used, cs = c :: used ++ rest ∧ (c = 'e' ∨ c = 'E') ∧ Double.exponent? (c :: used) = some (e, []) := by
  unfold Double.exponent? at h
  split at h
  · rename_i c cs
    split at h
    · rename_i letter
      split at h
      · obtain ⟨used, rfl, cut⟩ := signedExponent_cut h
        refine ⟨c, '+' :: used, rfl, letter, ?_⟩
        rw [exponent_letter letter]
        exact cut
      · obtain ⟨used, rfl, cut⟩ := signedExponent_cut h
        refine ⟨c, '-' :: used, rfl, letter, ?_⟩
        rw [exponent_letter letter]
        exact cut
      · rename_i plus minus
        obtain ⟨used, rfl, cut⟩ := signedExponent_cut h
        refine ⟨c, used, rfl, letter, ?_⟩
        have unsigned : exponentSign used = (false, used) := by
          apply exponentSign_plain
          · rintro tail rfl
            exact plus _ rfl
          · rintro tail rfl
            exact minus _ rfl
        rw [exponent_letter letter, unsigned]
        exact cut
    · cases h
  · cases h

theorem exponentSign_drop (cs : List Char) :
    (exponentSign cs).2 = cs.drop (signLength cs.head?) := by
  by_cases plus : cs.head? = some '+'
  · obtain ⟨rest, rfl⟩ := List.head?_eq_some_iff.mp plus
    rfl
  by_cases minus : cs.head? = some '-'
  · obtain ⟨rest, rfl⟩ := List.head?_eq_some_iff.mp minus
    rfl
  · rw [exponentSign_of_head plus minus, signLength, if_neg (not_or.mpr ⟨plus, minus⟩)]
    rfl

theorem signLength_le (cs : List Char) : signLength cs.head? ≤ cs.length := by
  rcases cs with _ | ⟨c, cs⟩
  · exact Nat.le_refl 0
  · rw [signLength, List.length_cons]
    split
    · omega
    · omega

theorem exponentLength_front (front rest : List Char) : exponentLength? (front ++ rest) front.length =
    some (((Double.exponent? rest).map fun x => rest.length - x.2.length).getD 0) := by
  have here : (front ++ rest)[front.length]? = rest.head? := by
    rw [← List.head?_drop, List.drop_left]
  have next : (front ++ rest)[front.length + 1]? = rest.tail.head? := by
    rw [← List.head?_drop, ← List.drop_drop, List.drop_left, List.drop_one]
  unfold exponentLength?
  rw [here, next]
  by_cases h : rest.head? ≠ some 'e' ∧ rest.head? ≠ some 'E'
  · rw [exponent_of_head h, if_neg (not_or.mpr h)]
    rfl
  · obtain ⟨c, tail, rfl, hc⟩ := letter_of_head h
    have letter : (c :: tail).head? = some 'e' ∨ (c :: tail).head? = some 'E' := hc.imp (congrArg some) (congrArg some)
    rw [if_pos letter, exponent_letter hc, exponentSign_drop]
    rw [List.tail_cons]
    generalize hsign : signLength tail.head? = sign
    have le : sign ≤ tail.length := hsign ▸ signLength_le tail
    have digits : digitsFrom? (front ++ c :: tail) (front.length + 1 + sign) =
        some (Text.takeDigits (tail.drop sign)).1.length := by
      have shifted := digitsFrom_front (front ++ c :: tail.take sign) (tail.drop sign)
      rw [List.append_assoc, List.cons_append, List.take_append_drop, List.length_append, List.length_cons,
        List.length_take_of_le le, Nat.add_comm sign, ← Nat.add_assoc] at shifted
      exact shifted
    have whole := congrArg List.length (takeDigits_append (tail.drop sign))
    rw [List.length_append, List.length_drop] at whole
    dsimp only
    rw [digits]
    unfold Double.signedExponent?
    dsimp only
    by_cases empty : (Text.takeDigits (tail.drop sign)).1 = []
    · rw [if_pos empty, empty]
      rfl
    · have pos := List.length_pos_iff.mpr empty
      rw [if_neg empty]
      show some (if _ then _ else _) = some ((c :: tail).length - (Text.takeDigits (tail.drop sign)).2.length)
      rw [if_neg (by omega), List.length_cons]
      congr 1
      omega

/-! ## Numerals -/

theorem numberLength_of_numeral {bs after : List Char} {n : Double.Numeral} (h : Double.numeral? bs = some (n, after)) :
    numberLength? bs = some (bs.length - after.length) := by
  have split := takeDigits_append bs
  have length := congrArg List.length split
  rw [List.length_append] at length
  unfold Double.numeral? at h
  dsimp only at h
  by_cases empty : (Text.takeDigits bs).1 = []
  · rw [if_pos empty] at h
    cases h
  rw [if_neg empty] at h
  have pos := List.length_pos_iff.mpr empty
  have whole : digitsFrom? bs 0 = some (Text.takeDigits bs).1.length := digitsFrom_front [] bs
  have fraction := fractionLength_front (Text.takeDigits bs).1 (Text.takeDigits bs).2
  rw [split] at fraction
  -- What the fraction leaves over, and how long it is.
  obtain ⟨rest, used, hrest, hused, hlength⟩ : ∃ rest used,
      ((Double.fraction? (Text.takeDigits bs).2).getD ([], (Text.takeDigits bs).2)).2 = rest ∧
      (Text.takeDigits bs).2 = used ++ rest ∧
      ((Double.fraction? (Text.takeDigits bs).2).map fun x => x.1.length + 1).getD 0 = used.length := by
    rcases hf : Double.fraction? (Text.takeDigits bs).2 with _ | ⟨digits, rest⟩
    · exact ⟨_, [], rfl, rfl, rfl⟩
    · exact ⟨rest, '.' :: digits, rfl, fraction_text hf, rfl⟩
  have exponent := exponentLength_front ((Text.takeDigits bs).1 ++ used) rest
  rw [List.append_assoc, ← hused, split, List.length_append] at exponent
  rw [hlength] at fraction
  rw [hrest] at h
  rw [hused, List.length_append] at length
  have sum : numberLength? bs = some ((Text.takeDigits bs).1.length + used.length +
      ((Double.exponent? rest).map fun x => rest.length - x.2.length).getD 0) := by
    unfold numberLength?
    rw [whole, Option.bind_eq_bind, Option.bind_some, if_neg (by omega), fraction]
    show (exponentLength? bs _).bind _ = _
    rw [exponent]
    rfl
  rw [sum]
  congr 1
  rcases he : Double.exponent? rest with _ | ⟨e, behind⟩
  · rw [he] at h
    cases h
    show (Text.takeDigits bs).1.length + used.length + 0 = _
    omega
  · rw [he] at h
    cases h
    have le := (exponent_suffix he).length_le
    show (Text.takeDigits bs).1.length + used.length + (rest.length - after.length) = _
    omega

theorem numeral_bytes (cs : List Char) :
    Double.numeral? (bytes cs) = (Double.numeral? cs).map fun x => (x.1, bytes x.2) := by
  unfold Double.numeral?
  simp only [takeDigits_bytes, fraction_bytes]
  split
  · rfl
  · rcases Double.fraction? (Text.takeDigits cs).2 with _ | ⟨digits, rest⟩
    · simp only [Option.map_none, Option.getD_none, exponent_bytes]
      rcases Double.exponent? (Text.takeDigits cs).2 with _ | ⟨e, after⟩
      · rfl
      · rfl
    · simp only [Option.map_some, Option.getD_some, exponent_bytes]
      rcases Double.exponent? rest with _ | ⟨e, after⟩
      · rfl
      · rfl

/-- The fraction at the front, where there may be none, is the same before any exponent. -/
theorem fraction_part (cs : List Char) : ∃ used rest digits, cs = used ++ rest ∧
    (Double.fraction? cs).getD ([], cs) = (digits, rest) ∧ (∀ c, used.head? = some c → c.isDigit = false) ∧
    ∀ x, (∀ c, x.head? = some c → c = 'e' ∨ c = 'E') → (Double.fraction? (used ++ x)).getD ([], used ++ x) = (digits, x) := by
  rcases hf : Double.fraction? cs with _ | ⟨digits, rest⟩
  · refine ⟨[], cs, [], rfl, rfl, nofun, fun x letter => ?_⟩
    have none : Double.fraction? x = none := by
      apply fraction_of_head
      intro point
      rcases letter _ point with h | h
      · cases h
      · cases h
    rw [List.nil_append, none]
    rfl
  · refine ⟨'.' :: digits, rest, digits, fraction_text hf, rfl, ?_, fun x letter => ?_⟩
    · rintro c ⟨⟩
      rfl
    · have stop : ∀ c, x.head? = some c → c.isDigit = false := by
        intro c hc
        rcases letter c hc with rfl | rfl
        · rfl
        · rfl
      rw [fraction_cut hf stop]
      rfl

/-- A numeral without what follows it. -/
theorem numeral_cut {cs after : List Char} {n : Double.Numeral} (h : Double.numeral? cs = some (n, after)) :
    ∃ used, cs = used ++ after ∧ Double.numeral? used = some (n, []) := by
  obtain ⟨fraction, rest, digits, htail, hfraction, point, same⟩ := fraction_part (Text.takeDigits cs).2
  unfold Double.numeral? at h
  dsimp only at h
  rw [hfraction] at h
  split at h
  · cases h
  rename_i found
  have cut (x : List Char) (letter : ∀ c, x.head? = some c → c = 'e' ∨ c = 'E') :
      (Double.exponent? x = none → Double.numeral? ((Text.takeDigits cs).1 ++ (fraction ++ x)) =
        some (⟨(Text.takeDigits cs).1, digits, none⟩, x)) ∧
      ∀ e rest, Double.exponent? x = some (e, rest) → Double.numeral? ((Text.takeDigits cs).1 ++ (fraction ++ x)) =
        some (⟨(Text.takeDigits cs).1, digits, some e⟩, rest) := by
    have stop : ∀ c, (fraction ++ x).head? = some c → c.isDigit = false := by
      intro c hc
      rcases fraction with _ | ⟨d, fraction⟩
      · rcases letter c hc with rfl | rfl
        · rfl
        · rfl
      · exact point c hc
    unfold Double.numeral?
    simp only [takeDigits_run (takeDigits_all cs) stop, if_neg found, same x letter]
    constructor
    · intro he
      simp only [he]
    · intro e rest he
      simp only [he]
  rcases he : Double.exponent? rest with _ | ⟨e, behind⟩
  · rw [he] at h
    cases h
    refine ⟨(Text.takeDigits cs).1 ++ (fraction ++ []), ?_, (cut [] nofun).1 rfl⟩
    rw [List.append_nil, List.append_assoc, ← htail, takeDigits_append]
  · rw [he] at h
    cases h
    obtain ⟨c, exponent, rfl, letter, whole⟩ := exponent_cut he
    refine ⟨(Text.takeDigits cs).1 ++ (fraction ++ (c :: exponent)), ?_, ?_⟩
    · rw [List.append_assoc, List.append_assoc, ← htail, takeDigits_append]
    · exact (cut _ fun d hd => by cases hd; exact letter).2 _ _ whole

/-- The length of a number in bytes is that of the numeral at the beginning of the text, and what it
    cuts out is that numeral. -/
theorem number_bytes {cs after : List Char} {n : Double.Numeral} (h : Double.numeral? cs = some (n, after)) :
    ∃ used, cs = used ++ after ∧ Double.numeral? used = some (n, []) ∧ numberLength? (bytes cs) = some (bytes used).length := by
  obtain ⟨used, rfl, cut⟩ := numeral_cut h
  refine ⟨used, rfl, cut, ?_⟩
  have same := numeral_bytes (used ++ after)
  rw [h] at same
  rw [numberLength_of_numeral same, bytes_append, List.length_append, Nat.add_sub_cancel]

/-- Where there is a digit there is a numeral. -/
theorem numeral_of_digit {c : Char} (digit : c.isDigit = true) (cs : List Char) :
    ∃ n after, Double.numeral? (c :: cs) = some (n, after) := by
  have found : (Text.takeDigits (c :: cs)).1 ≠ [] := by
    simp [Text.takeDigits, digit]
  unfold Double.numeral?
  simp only [if_neg found]
  split
  · exact ⟨_, _, rfl⟩
  · exact ⟨_, _, rfl⟩

end Groq.Query
