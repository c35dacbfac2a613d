/-
  Groq.Proofs.Query.Limits — more generous limits, the same tree.

  A run with more depth does what the run with less did, entry by entry in the memory, up to where the
  other would have ended: `keepsPace` relates a run that comes to a result with one that does the same
  from the same memory. Depth alone never changes a tree. What can change it are the constants
  between brackets, which are evaluated within the bound on evaluation: `a[('b')]` is a filter where
  that bound is 1, and a field where it is 2 (`bracket_bound`).
  Proved: under greater limits a query parses to the same tree, if the bounds on evaluation are the
  same or both at least the length of its normal form (`parse_deeper`).
-/

import Groq.Proofs.Eval.Totality
import Groq.Proofs.Query.Height
import Groq.Proofs.Query.Writing
import Mathlib

namespace Groq

/-! ## Constants -/

/-- Of the limits only the bound on evaluation matters to a constant. -/
theorem evalAt_limits {limits limits' : Limits} (h : limits.eval = limits'.eval) (depth : Nat) :
    evalAt limits depth = evalAt limits' depth := by
  induction depth with
  | zero =>
    funext env e
    exact congrArg (fun bound => Except.error (Halt.failed (.tooDeep bound))) h
  | succ depth ih =>
    funext env e
    exact congrArg (fun eval => Eval.node eval env e) ih

/-- Two limits find the same constants in trees of at most a certain height. -/
theorem constant_limits {limits limits' : Limits} {n : Nat}
    (h : limits.eval = limits'.eval ∨ n ≤ limits.eval ∧ n ≤ limits'.eval) {e : Expr} (he : e.height ≤ n) :
    constant? limits' e = constant? limits e := by
  unfold constant?
  rcases h with same | ⟨enough, enough'⟩
  · rw [evalAt_limits same, same]
  · rw [evalAt_enough limits limits' .constant (Nat.le_trans he enough) (Nat.le_trans he enough')]

namespace Query

/-! ## Runs that do the same with more depth -/

/-- Where the first run comes to a result, that is the value, and the second run comes to it with
    the same memory, which satisfies `P` again. -/
def keepsPace (P : Memory → Prop) : Simulation Remembering Remembering where
  Rel v x y := ∀ memory, P memory → ∀ r next, x.run.run memory = (.ok r, next) →
    r = v ∧ P next ∧ y.run.run memory = (.ok r, next)
  pure a memory hm r next h := by
    cases h
    exact ⟨rfl, hm, rfl⟩
  bind := by
    intro α β a b x y f g first second memory hm r next h
    rw [run_bind_remembering] at h
    rcases hx : x.run.run memory with ⟨e | a', middle⟩
    · rw [hx] at h
      cases h
    · rw [hx] at h
      obtain ⟨rfl, hmiddle, hy⟩ := first memory hm a' middle hx
      rw [run_bind_remembering, hy]
      exact second middle hmiddle r next h

section Pace

variable {P : Memory → Prop} {α : Type}

/-- A run that ends at its bound sets no pace. -/
theorem keepsPace_tooDeep (v : α) (y : Remembering α) : (keepsPace P).Rel v Attempts.tooDeep y :=
  fun _ _ _ _ h => nomatch h

theorem keepsPace_inTraversals {v : α} {x y : Remembering α} (h : (keepsPace P).Rel v x y) :
    (keepsPace P).Rel v (Attempts.inTraversals x) (Attempts.inTraversals y) := by
  intro memory hm r next hr
  rw [run_inTraversals] at hr ⊢
  rcases hx : x.run.run memory with ⟨e | a, middle⟩
  · rw [hx] at hr
    cases hr
  · rw [hx] at hr
    cases hr
    obtain ⟨hv, hp, hy⟩ := h memory hm r middle hx
    rw [hy]
    exact ⟨hv, hp, rfl⟩

end Pace

variable {const const' : Expr → Option Value} {whole : Span}

theorem keepsPace_remembered {l : Level} {s : Span} (hs : s.Within whole) {x y : OptionT Remembering Expr}
    (h : (keepsPace (Memory.Sound const whole)).Agree (readSpan const l s) x y) :
    (keepsPace (Memory.Sound const whole)).Agree (readSpan const l s) (remembered l s x) (remembered l s y) := by
  intro memory hm r next hr
  rcases hl : memory[s.spot l]? with _ | found
  · rw [remembered_computed hl, run_bind_remembering] at hr ⊢
    rcases hx : x.run.run.run memory with ⟨e | a, middle⟩
    · rw [hx] at hr
      cases hr
    · rw [hx] at hr
      cases hr
      obtain ⟨rfl, hmiddle, hy⟩ := h memory hm r middle hx
      rw [hy]
      exact ⟨rfl, sound_insert hmiddle hs, rfl⟩
  · rw [remembered_found hl] at hr ⊢
    cases hr
    exact ⟨hm l s r hs hl, hm, rfl⟩

variable (const const' whole) in
/-- By induction on the lesser depth. What is looked up is the same on both sides, since so is the
    memory; constants are asked only for trees no higher than the text is long. -/
theorem keepsPace_level (same : ∀ e : Expr, e.height ≤ whole.chars.length → const' e = const e) {depth depth' : Nat}
    (hd : depth ≤ depth') :
    (∀ l s, s.Within whole → (keepsPace (Memory.Sound const whole)).Agree (readSpan const l s)
      (level const depth l s) (level const' depth' l s)) ∧
    ∀ base s, s.Within whole → (keepsPace (Memory.Sound const whole)).Agree (followSpan const base s)
      (follow const depth base s) (follow const' depth' base s) := by
  induction depth generalizing depth' with
  | zero =>
    refine ⟨fun l s hs => ?_, fun base s hs => ?_⟩
    · by_cases h : s.chars = []
      · rw [readSpan_eq, if_pos h]
        cases depth' <;> simp only [level, if_pos h] <;> exact agree_failure
      · cases depth' <;> simp only [level, if_neg h] <;> exact keepsPace_remembered hs (keepsPace_tooDeep _ _)
    · by_cases h : s.chars = []
      · rw [followSpan_eq, if_pos h]
        cases depth' <;> simp only [follow, if_pos h] <;> exact agree_pure base
      · cases depth' <;> simp only [follow, if_neg h] <;> exact keepsPace_inTraversals (keepsPace_tooDeep _ _)
  | succ depth ih =>
    obtain ⟨depth', rfl⟩ := Nat.exists_eq_succ_of_ne_zero (Nat.ne_of_gt (Nat.lt_of_lt_of_le (Nat.succ_pos depth) hd))
    obtain ⟨levels, follows⟩ := ih (Nat.le_of_succ_le_succ hd)
    refine ⟨fun l s hs => ?_, fun base s hs => ?_⟩
    · simp only [level]
      by_cases h : s.chars = []
      · rw [readSpan_eq, if_pos h, if_pos h, if_pos h]
        exact agree_failure
      · rw [if_neg h, if_neg h]
        refine keepsPace_remembered hs ?_
        rw [readSpan_eq, if_neg h]
        refine agree_rule l (fun l' t ht => levels l' t (ht.1.trans hs)) (fun _ => levels l.tighter s hs) ?_
        exact fun e t ht => follows e t (ht.1.trans hs)
    · simp only [follow]
      by_cases h : s.chars = []
      · rw [followSpan_eq, if_pos h, if_pos h, if_pos h]
        exact agree_pure base
      · rw [followSpan_eq, if_neg h, if_neg h, if_neg h]
        refine keepsPace_inTraversals ?_
        refine agree_bind (agree_traversal base (fun l t e ht he => ⟨rfl, same e ?_⟩)
          fun l t ht => levels l t (ht.1.trans hs)) fun (e, rest) he => ?_
        · exact Nat.le_trans (reading_height const he) (ht.1.trans hs).length_le
        · exact follows e rest ((traversal_rest base s _ he).2.1.trans hs)

/-! ## Query text -/

/-- A query that parses under some limits parses to the same tree under greater ones, if both find the
    same constants in it: their bounds on evaluation are the same, or enough for the whole text. -/
theorem parse_deeper (limits limits' : Limits) (query : String) (n : List Char) (e : Expr)
    (normal : normalizeChars query.toList = .ok n) (deeper : limits.parse ≤ limits'.parse)
    (eval : limits.eval = limits'.eval ∨ n.length ≤ limits.eval ∧ n.length ≤ limits'.eval)
    (parses : parse limits query = .ok e) : parse limits' query = .ok e := by
  rw [← String.ofList_toList (s := query)] at parses ⊢
  rw [parse_of_normal normal] at parses ⊢
  have pace := (keepsPace_level (constant? limits) (constant? limits') ⟨0, n⟩
    (fun e he => constant_limits eval he) deeper).1 .pipe ⟨0, n⟩ (.refl _) ∅ sound_empty
  have less : (Parser.ofText n limits).run.1 = (Parser.ofText n limits).outcome
      ((level (constant? limits) limits.parse .pipe ⟨0, n⟩ : OptionT Remembering Expr).run.run.run ∅).1 := rfl
  have more : (Parser.ofText n limits').run.1 = (Parser.ofText n limits').outcome
      ((level (constant? limits') limits'.parse .pipe ⟨0, n⟩ : OptionT Remembering Expr).run.run.run ∅).1 := rfl
  rw [less] at parses
  rw [more]
  rcases hx : (level (constant? limits) limits.parse .pipe ⟨0, n⟩ : OptionT Remembering Expr).run.run.run ∅ with
    ⟨cause | r, next⟩
  · rw [hx] at parses
    cases parses
  · rw [hx] at parses
    obtain ⟨-, -, hy⟩ := pace r next hx
    rw [hy]
    cases r with
    | none => cases parses
    | some found => exact parses

set_option maxRecDepth 1000 in
/-- A bound of the length of the text is enough for the constant in the brackets. -/
theorem parse_deeper_bracket : parse ⟨28, 8, 0⟩ "a[('b')]" = .ok (.field (.ownField "a") "b") ∧
    parse {} "a[('b')]" = .ok (.field (.ownField "a") "b") := by
  have normal : normalizeChars "a[('b')]".toList = .ok "a[('b')]".toList := by cbv
  have parses : parse ⟨28, 8, 0⟩ "a[('b')]" = .ok (.field (.ownField "a") "b") :=
    parse_of_bounded (r := some (.field (.ownField "a") "b")) normal rfl
  exact ⟨parses, parse_deeper ⟨28, 8, 0⟩ {} _ _ _ normal (by decide) (.inr ⟨by decide, by decide⟩) parses⟩

/-! ## Constants beyond the bound -/

/-- A name in round brackets, in square ones. -/
def bracketed : List Char := ['a', '[', '(', '"', 'b', '"', ')', ']']

theorem normalize_bracketed : normalizeChars bracketed = .ok bracketed := by
  have nothing : lexemesFrom 8 [] = .ok [] := by rw [lexemesFrom]
  have closing : lexemesFrom 6 ([')', ']'] ++ []) = .ok [.mark ')', .mark ']'] := by
    rw [lexemes_marks (by decide) (by decide) (by decide)]
    exact congrArg (Except.map _) nothing
  have literal : lexemesFrom 3 ['"', 'b', '"', ')', ']'] = .ok [.literal ['"', 'b', '"'], .mark ')', .mark ']'] :=
    (lexemes_literal rfl rfl).trans (congrArg (Except.map _) closing)
  have opening : lexemesFrom 1 (['[', '('] ++ ['"', 'b', '"', ')', ']']) =
      .ok [.mark '[', .mark '(', .literal ['"', 'b', '"'], .mark ')', .mark ']'] := by
    rw [lexemes_marks (by decide) (by decide) (by decide)]
    exact congrArg (Except.map _) literal
  have name := closed_name (List.cons_ne_nil 'a' []) (by decide) 0 ['[', '(', '"', 'b', '"', ')', ']']
    (stops_cons (by decide) (by decide))
  unfold normalizeChars lexemes
  exact congrArg (Except.map _) (name.trans (congrArg (Except.map _) opening))

set_option maxRecDepth 1000 in
/-- Where the bound on evaluation does not reach into the brackets, a name in them is a condition. -/
theorem bracket_bound :
    parse ⟨256, 1, 256⟩ (String.ofList bracketed) = .ok (.filter (.ownField "a") (.group (.literal (.string "b")))) ∧
      parse ⟨256, 2, 256⟩ (String.ofList bracketed) = .ok (.field (.ownField "a") "b") := by
  have filter : boundedParse ⟨256, 1, 256⟩ 256 bracketed =
      .ok (some (.filter (.ownField "a") (.group (.literal (.string "b"))))) := rfl
  have field : boundedParse ⟨256, 2, 256⟩ 256 bracketed = .ok (some (.field (.ownField "a") "b")) := rfl
  exact ⟨parse_of_bounded normalize_bracketed filter, parse_of_bounded normalize_bracketed field⟩

/-- A greater bound on evaluation alone can make a query another one. -/
theorem limits_change_tree : ¬ ∀ (limits limits' : Limits) (query : String) (e : Expr), limits.parse ≤ limits'.parse →
    limits.eval ≤ limits'.eval → limits.scope ≤ limits'.scope → parse limits query = .ok e →
    parse limits' query = .ok e := by
  intro same
  obtain ⟨filter, field⟩ := bracket_bound
  have changed := same ⟨256, 1, 256⟩ ⟨256, 2, 256⟩ _ _ (by decide) (by decide) (by decide) filter
  cases field.symm.trans changed

end Query

end Groq
