/-
  Groq.Proofs.Query.Depth — how deep the recursion goes.

  A rule recurses on shorter spans, or on the same span at a tighter level, of which there are eight.
  So the depth is at most nine for each character.
  Proved: where so much depth is left parsing does not come to its end, with or without memory, and
  finds what the recursion without bound finds (`boundedParse_deep`, `Parser.run_deep`).
-/

import Groq.Proofs.Query.Memory

namespace Groq.Query

/-- Two computations that both stay within their depth and result in a value. -/
def within : Simulation (Except Exhausted) (Except Exhausted) where
  Rel v x y := x = .ok v ∧ y = .ok v
  pure a := ⟨rfl, rfl⟩
  bind := by
    rintro α β a b x y f g ⟨rfl, rfl⟩ second
    exact second

theorem within_inTraversals {α : Type} {v : α} {x y : Except Exhausted α} (h : within.Rel v x y) :
    within.Rel v (Attempts.inTraversals x) (Attempts.inTraversals y) := by
  obtain ⟨rfl, rfl⟩ := h
  exact ⟨rfl, rfl⟩

theorem within_remembered {l : Level} {s : Span} {v : OptionT Id Expr} {x y : OptionT (Except Exhausted) Expr}
    (h : within.Agree v x y) : within.Agree v (remembered l s x) (remembered l s y) := by
  unfold Simulation.Agree
  rw [remembered_plain, remembered_plain]
  exact h

section Levels

variable (constant? : Expr → Option Value)

/-- By induction on the depth. A shorter span has nine less to go through, which is one more than
    the tighter levels of any span. -/
theorem within_level (depth : Nat) :
    (∀ l s, 9 * s.chars.length + l.rank ≤ depth →
      within.Agree (readSpan constant? l s) (level constant? depth l s) (level constant? depth l s)) ∧
    ∀ base s, 9 * s.chars.length ≤ depth →
      within.Agree (followSpan constant? base s) (follow constant? depth base s) (follow constant? depth base s) := by
  induction depth with
  | zero =>
    refine ⟨fun l s deep => ?_, fun base s deep => ?_⟩
    · have h : s.chars = [] := List.length_eq_zero_iff.mp (by omega)
      rw [readSpan_eq, level, if_pos h, if_pos h]
      exact agree_failure
    · have h : s.chars = [] := List.length_eq_zero_iff.mp (by omega)
      rw [followSpan_eq, follow, if_pos h, if_pos h]
      exact agree_pure base
  | succ depth ih =>
    obtain ⟨levels, follows⟩ := ih
    have rank (l : Level) : l.rank ≤ 8 := by
      cases l <;> decide
    refine ⟨fun l s deep => ?_, fun base s deep => ?_⟩
    · by_cases h : s.chars = []
      · rw [readSpan_eq, level, if_pos h, if_pos h]
        exact agree_failure
      · rw [readSpan_eq, level, if_neg h, if_neg h]
        apply within_remembered
        refine agree_rule l (fun l' t ht => levels l' t ?_) (fun hl => levels l.tighter s ?_) fun e t ht => follows e t ?_
        · have := ht.2
          have := rank l'
          omega
        · have := Level.rank_tighter hl
          omega
        · have := ht.2
          omega
    · by_cases h : s.chars = []
      · rw [followSpan_eq, follow, if_pos h, if_pos h]
        exact agree_pure base
      · rw [followSpan_eq, follow, if_neg h, if_neg h]
        apply within_inTraversals
        refine agree_bind (agree_traversal base (fun _ _ _ _ _ => ⟨rfl, rfl⟩) fun l t ht => levels l t ?_)
          fun (e, rest) he => follows e rest ?_
        · have := ht.2
          have := rank l
          omega
        · have shorter : rest.chars.length < s.chars.length := (traversal_rest base s _ he).2.2
          show 9 * rest.chars.length ≤ depth
          omega

end Levels

theorem boundedParse_deep {limits : Limits} {depth : Nat} {text : List Char} (deep : 9 * text.length + 8 ≤ depth) :
    boundedParse limits depth text = .ok (reading (constant? limits) .pipe text) :=
  ((within_level (constant? limits) depth).1 .pipe ⟨0, text⟩ deep).1

/-! ## Runs -/

namespace Parser

/-- A run with enough depth leaves as much. -/
theorem Sound.deep {p : Parser} (h : p.Sound) (deep : 9 * p.text.length + 8 ≤ p.limits.parse - p.spent) :
    p.run.1 = p.outcome (.ok (reading (constant? p.limits) .pipe p.text)) ∧ p.run.2.spent = p.spent := by
  rcases ((agree_run p).2 p.memory h).2 with found | ⟨e, e', -, stops⟩
  · exact ⟨congrArg p.outcome found, congrArg (fun result => p.spent + unreturned result) found⟩
  · exact absurd ((boundedParse_deep deep).symm.trans stops) nofun

/-- With enough depth every run finds what the recursion without bound finds. -/
theorem run_deep {text : List Char} {limits : Limits} (deep : 9 * text.length + 8 ≤ limits.parse) (runs : Nat) :
    (after text limits runs).run.1 = (ofText text limits).outcome (.ok (reading (constant? limits) .pipe text)) := by
  have unspent : (after text limits runs).spent = 0 := by
    induction runs with
    | zero => rfl
    | succ runs ih =>
      obtain ⟨sound, htext, hlimits⟩ := after_spec text limits runs
      exact (sound.deep (by rw [htext, hlimits, ih]; exact deep)).2.trans ih
  obtain ⟨sound, htext, hlimits⟩ := after_spec text limits runs
  have found := (sound.deep (by rw [htext, hlimits, unspent]; exact deep)).1
  rw [htext, hlimits] at found
  rw [found]
  unfold outcome
  rw [htext, hlimits]
  rfl

end Parser

/-- Nothing so short is too deep. -/
theorem parse_deep {limits : Limits} {w n : List Char} (normal : normalizeChars w = .ok n)
    (deep : 9 * n.length + 8 ≤ limits.parse) : parse limits (String.ofList w) ≠ .error (.tooDeep limits.parse) := by
  have found : (Parser.ofText n limits).run.1 =
      (Parser.ofText n limits).outcome (.ok (reading (constant? limits) .pipe n)) := Parser.run_deep deep 0
  rw [parse_of_normal normal, found]
  unfold Parser.outcome
  cases reading (constant? limits) .pipe n <;> exact nofun

end Groq.Query
