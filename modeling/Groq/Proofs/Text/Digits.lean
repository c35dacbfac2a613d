/-
  Groq.Proofs.Text.Digits — what digits spell.

  A number is read from its digits one after the other (`decimalValue_append`), as it is written digit
  after digit.
  Proved: `width` digits spell less than `10 ^ width` (`decimalValue_lt`), and the digits that a number
  is written in spell that number (`decimalValue_toDigits`).
-/

import Groq.Text.Digits
import Mathlib.Algebra.Order.Ring.Int

namespace Groq.Text

theorem decimalValue_append (digits : List Char) (c : Char) :
    decimalValue (digits ++ [c]) = 10 * decimalValue digits + digitValue c := by
  unfold decimalValue
  rw [List.foldl_append]
  rfl

theorem digitValue_lt {c : Char} (h : c.isDigit = true) : digitValue c < 10 := by
  obtain ⟨_, high⟩ := Char.isDigit_iff_toNat.mp h
  have nine : '9'.toNat = '0'.toNat + 9 := rfl
  unfold digitValue
  omega

theorem decimalValue_lt {digits : List Char} (h : ∀ c ∈ digits, c.isDigit = true) :
    decimalValue digits < 10 ^ digits.length := by
  -- by induction on the number of digits: reading goes from the front, the last digit counts once
  induction hn : digits.length generalizing digits with
  | zero =>
    rw [List.length_eq_zero_iff.mp hn]
    decide
  | succ n ih =>
    have some : digits ≠ [] := List.ne_nil_of_length_eq_add_one hn
    have initial : decimalValue digits.dropLast < 10 ^ n := by
      refine ih (fun c mem => h c (List.dropLast_subset _ mem)) ?_
      rw [List.length_dropLast, hn, Nat.add_sub_cancel]
    have last := digitValue_lt (h _ (List.getLast_mem some))
    rw [← List.dropLast_concat_getLast some, decimalValue_append, Nat.pow_succ]
    omega

theorem digitValue_digitChar {n : Nat} (h : n < 10) : digitValue n.digitChar = n := by
  revert n
  decide

theorem decimalValue_toDigits (n : Nat) : decimalValue (Nat.toDigits 10 n) = n := by
  induction n using Nat.strongRecOn with
  | _ n ih =>
    rw [Nat.toDigits_eq_if (by decide)]
    split
    · rename_i small
      rw [← List.nil_append [n.digitChar], decimalValue_append, digitValue_digitChar small]
      exact Nat.zero_add n
    · rename_i large
      have last : n % 10 < 10 := Nat.mod_lt _ (by decide)
      rw [decimalValue_append, ih (n / 10) (Nat.div_lt_self (by omega) (by decide)), digitValue_digitChar last]
      exact Nat.div_add_mod n 10

end Groq.Text
