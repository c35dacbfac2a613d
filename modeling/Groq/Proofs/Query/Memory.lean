/-
  Groq.Proofs.Query.Memory — what a parser remembers is true of the text, at every depth.

  A memory is sound for a text if every entry for a level and a stretch of the text is what the
  unbounded recursion finds there. Every step of a run keeps it sound, whatever depth it has left, so
  an entry computed at one depth may be used at another.
  Proved: a run that does not end at a bound finds what `reading` finds; where parsing without
  memory stays within the bound, parsing with memory does (`memory_refines_recursion`). The memory a
  run leaves is sound for the next (`Parser.Sound.step`), so later runs find the same (`Parser.run_after`).
-/

import Groq.Proofs.Query.Reading
import Groq.Query.Parser

namespace Groq.Query

/-! ## Attempts that stay true -/

section State

variable {ε σ α β : Type}

theorem run_bind_remembering (y : ExceptT ε (StateM σ) α) (g : α → ExceptT ε (StateM σ) β) (memory : σ) :
    (y >>= g).run.run memory =
      match y.run.run memory with
      | (.ok a, next) => (g a).run.run next
      | (.error e, next) => (.error e, next) := by
  rw [ExceptT.run_bind, StateT.run_bind]
  rcases y.run.run memory with ⟨e | a, next⟩
  · rfl
  · rfl

theorem run_bind_optional (y : OptionT (ExceptT ε (StateM σ)) α) (f : α → OptionT (ExceptT ε (StateM σ)) β)
    (memory : σ) : (y >>= f).run.run.run memory =
      match y.run.run.run memory with
      | (.ok (some a), next) => (f a).run.run.run next
      | (.ok none, next) => (.ok none, next)
      | (.error e, next) => (.error e, next) := by
  rw [OptionT.run_bind]
  show (y.run >>= _).run.run memory = _
  rw [run_bind_remembering]
  rcases y.run.run.run memory with ⟨e | _ | a, next⟩ <;> rfl

theorem run_orElse_optional (y z : OptionT (ExceptT ε (StateM σ)) α) (memory : σ) :
    (y <|> z).run.run.run memory =
      match y.run.run.run memory with
      | (.ok none, next) => z.run.run.run next
      | other => other := by
  rw [OptionT.run_orElse]
  show (y.run >>= _).run.run memory = _
  rw [run_bind_remembering]
  rcases y.run.run.run memory with ⟨e | _ | a, next⟩ <;> rfl

end State

/-- Two bounded computations are attempts at a value where they result in nothing else, the second
    keeps `P` of its memory, and it ends at a bound only if the first does. -/
def attempts (P : Memory → Prop) : Simulation (Except Exhausted) Remembering where
  Rel v x y := (∀ r, x = .ok r → r = v) ∧ ∀ memory, P memory →
    P (y.run.run memory).2 ∧ ((y.run.run memory).1 = .ok v ∨ ∃ e e', (y.run.run memory).1 = .error e ∧ x = .error e')
  pure a := ⟨fun r h => by cases h; rfl, fun memory h => ⟨h, .inl rfl⟩⟩
  bind := by
    rintro α β a b x y f g ⟨hx, hy⟩ ⟨hf, hg⟩
    refine ⟨fun r h => ?_, fun memory hm => ?_⟩
    · rcases x with e | a'
      · cases h
      · obtain rfl := hx a' rfl
        exact hf r h
    · rw [run_bind_remembering]
      obtain ⟨hp, hr⟩ := hy memory hm
      rcases hrun : y.run.run memory with ⟨result, next⟩
      rw [hrun] at hp hr
      rcases hr with rfl | ⟨e, e', rfl, rfl⟩
      · obtain ⟨hp', hr'⟩ := hg next hp
        refine ⟨hp', hr'.imp_right fun ⟨e, e', he, hfe⟩ => ⟨e, ?_⟩⟩
        rcases x with e'' | a'
        · exact ⟨e'', he, rfl⟩
        · obtain rfl := hx a' rfl
          exact ⟨e', he, hfe⟩
      · exact ⟨hp, .inr ⟨e, e', rfl, rfl⟩⟩

section Runs

variable {P : Memory → Prop} {α : Type}

/-- Coming to the end of the depth says nothing of the value. -/
theorem attempts_tooDeep (v : α) :
    (attempts P).Rel v (Attempts.tooDeep : Except Exhausted α) (Attempts.tooDeep : Remembering α) :=
  ⟨nofun, fun _ h => ⟨h, .inr ⟨_, _, rfl, rfl⟩⟩⟩

theorem run_inTraversals (y : Remembering α) (memory : Memory) : (Attempts.inTraversals y : Remembering α).run.run memory =
    ((y.run.run memory).1.mapError fun _ => .inTraversals, (y.run.run memory).2) := by
  show (ExceptT.adapt (fun _ => Exhausted.inTraversals) y).run.run memory = _
  rw [ExceptT.run_adapt, StateT.run_map]
  rcases y.run.run memory with ⟨e | a, next⟩
  · rfl
  · rfl

theorem attempts_inTraversals {v : α} {x : Except Exhausted α} {y : Remembering α} (h : (attempts P).Rel v x y) :
    (attempts P).Rel v (Attempts.inTraversals x) (Attempts.inTraversals y) := by
  obtain ⟨hx, hy⟩ := h
  refine ⟨fun r hr => ?_, fun memory hm => ?_⟩
  · rcases x with e | a
    · cases hr
    · exact hx r hr
  · obtain ⟨hp, hr⟩ := hy memory hm
    rw [run_inTraversals]
    refine ⟨hp, hr.imp (fun h => by rw [h]; rfl) ?_⟩
    rintro ⟨e, e', he, rfl⟩
    exact ⟨_, _, by rw [he]; rfl, rfl⟩

end Runs

/-! ## What is remembered -/

section Remembered

variable {constant? : Expr → Option Value} {whole : Span}

/-- Every entry for a stretch of the text is what the stretch is at that level. -/
def Memory.Sound (constant? : Expr → Option Value) (whole : Span) (memory : Memory) : Prop :=
  ∀ (l : Level) (s : Span) (r : Option Expr),
    s.Within whole → memory[s.spot l]? = some r → r = reading constant? l s.chars

theorem sound_empty : Memory.Sound constant? whole ∅ := by
  intro l s r _ h
  simp at h

theorem sound_insert {memory : Memory} (h : memory.Sound constant? whole) {l : Level} {s : Span}
    (hs : s.Within whole) : Memory.Sound constant? whole (memory.insert (s.spot l) (reading constant? l s.chars)) := by
  intro l' t r ht hr
  rw [Std.HashMap.getElem?_insert] at hr
  split at hr
  · rename_i same
    simp only [beq_iff_eq, Span.spot, Spot.mk.injEq] at same
    obtain ⟨rfl, start, length⟩ := same
    cases hr
    rw [hs.chars_eq ht start length]
  · exact h l' t r ht hr

section Lookups

variable {l : Level} {s : Span} {memory : Memory} {y : OptionT Remembering Expr}

theorem lookUp_run : (Attempts.lookUp l s : Remembering (Option (Option Expr))).run.run memory =
    (.ok memory[s.spot l]?, memory) := rfl

theorem remembered_found {r : Option Expr} (h : memory[s.spot l]? = some r) :
    (remembered l s y).run.run.run memory = (.ok r, memory) := by
  show ((Attempts.lookUp l s : Remembering _) >>= _).run.run memory = _
  rw [run_bind_remembering, lookUp_run, h]
  rfl

theorem remembered_computed (h : memory[s.spot l]? = none) : (remembered l s y).run.run.run memory =
    (y.run >>= fun result => Attempts.keep l s result >>= fun _ => pure result).run.run memory := by
  show ((Attempts.lookUp l s : Remembering _) >>= _).run.run memory = _
  rw [run_bind_remembering, lookUp_run, h]

end Lookups

/-- Without memory nothing is found again. -/
theorem remembered_plain (l : Level) (s : Span) (x : OptionT (Except Exhausted) Expr) : (remembered l s x).run = x.run := by
  show (x.run >>= fun result => pure result) = x.run
  exact bind_pure _

/-- What is found again is what would be computed, and what was computed is true of the text. -/
theorem attempts_remembered {l : Level} {s : Span} (hs : s.Within whole) {x : OptionT (Except Exhausted) Expr}
    {y : OptionT Remembering Expr} (h : (attempts (Memory.Sound constant? whole)).Agree (readSpan constant? l s) x y) :
    (attempts (Memory.Sound constant? whole)).Agree (readSpan constant? l s) (remembered l s x) (remembered l s y) := by
  obtain ⟨hx, hy⟩ := h
  refine ⟨by rw [remembered_plain]; exact hx, fun memory hm => ?_⟩
  rw [remembered_plain]
  rcases hl : memory[s.spot l]? with _ | r
  · rw [remembered_computed hl, run_bind_remembering]
    obtain ⟨hp, hr⟩ := hy memory hm
    rcases hrun : y.run.run.run memory with ⟨result, next⟩
    rw [hrun] at hp hr
    rcases hr with rfl | ⟨e, e', rfl, rfl⟩
    · exact ⟨sound_insert hp hs, .inl rfl⟩
    · exact ⟨hp, .inr ⟨e, e', rfl, rfl⟩⟩
  · rw [remembered_found hl]
    exact ⟨hm, .inl (congrArg _ (hm l s r hs hl))⟩

/-! ## Levels and traversals -/

variable (constant? whole) in
/-- By induction on the depth, with and without memory at once: a run at one depth may use what a run
    at another found, since both find what the stretch is. -/
theorem attempts_level (depth : Nat) :
    (∀ l s, s.Within whole → (attempts (Memory.Sound constant? whole)).Agree (readSpan constant? l s)
      (level constant? depth l s) (level constant? depth l s)) ∧
    ∀ base s, s.Within whole → (attempts (Memory.Sound constant? whole)).Agree (followSpan constant? base s)
      (follow constant? depth base s) (follow constant? depth base s) := by
  induction depth with
  | zero =>
    refine ⟨fun l s hs => ?_, fun base s hs => ?_⟩
    · unfold level
      by_cases h : s.chars = []
      · rw [readSpan_eq, if_pos h, if_pos h, if_pos h]
        exact agree_failure
      · rw [if_neg h, if_neg h]
        exact attempts_remembered hs (attempts_tooDeep _)
    · unfold follow
      by_cases h : s.chars = []
      · rw [followSpan_eq, if_pos h, if_pos h, if_pos h]
        exact agree_pure base
      · rw [if_neg h, if_neg h]
        exact attempts_inTraversals (attempts_tooDeep _)
  | succ depth ih =>
    obtain ⟨levels, follows⟩ := ih
    refine ⟨fun l s hs => ?_, fun base s hs => ?_⟩
    · unfold level
      by_cases h : s.chars = []
      · rw [readSpan_eq, if_pos h, if_pos h, if_pos h]
        exact agree_failure
      · rw [if_neg h, if_neg h]
        refine attempts_remembered hs ?_
        rw [readSpan_eq, if_neg h]
        refine agree_rule l (fun l' t ht => levels l' t (ht.1.trans hs)) (fun _ => levels l.tighter s hs) ?_
        exact fun e t ht => follows e t (ht.1.trans hs)
    · unfold follow
      by_cases h : s.chars = []
      · rw [followSpan_eq, if_pos h, if_pos h, if_pos h]
        exact agree_pure base
      · rw [followSpan_eq, if_neg h, if_neg h, if_neg h]
        refine attempts_inTraversals ?_
        refine agree_bind (agree_traversal base (fun _ _ _ _ _ => ⟨rfl, rfl⟩) fun l t ht => levels l t (ht.1.trans hs))
          fun (e, rest) he => ?_
        exact follows e rest ((traversal_rest base s _ he).2.1.trans hs)

theorem level_ok {depth : Nat} {l : Level} {s : Span} {r : Option Expr}
    (h : (level constant? depth l s : OptionT (Except Exhausted) Expr).run = .ok r) :
    r = reading constant? l s.chars :=
  ((attempts_level constant? s depth).1 l s (.refl s)).1 r h

end Remembered

/-! ## Runs -/

/-- What a parser remembers is true of its text. -/
def Parser.Sound (p : Parser) : Prop := p.memory.Sound (constant? p.limits) ⟨0, p.text⟩

/-- The parse of a text without memory, at a depth. -/
def boundedParse (limits : Limits) (depth : Nat) (text : List Char) : Except Exhausted (Option Expr) :=
  (level (constant? limits) depth .pipe ⟨0, text⟩ : OptionT (Except Exhausted) Expr).run

namespace Parser

variable {p : Parser}

theorem sound_ofText (text : List Char) (limits : Limits) : (ofText text limits).Sound := sound_empty

/-- A run with and without memory, at the depth that is left. -/
theorem agree_run (p : Parser) : (attempts (Memory.Sound (constant? p.limits) ⟨0, p.text⟩)).Agree
    (readSpan (constant? p.limits) .pipe ⟨0, p.text⟩)
    (level (constant? p.limits) (p.limits.parse - p.spent) .pipe ⟨0, p.text⟩)
    (level (constant? p.limits) (p.limits.parse - p.spent) .pipe ⟨0, p.text⟩) :=
  (attempts_level _ _ (p.limits.parse - p.spent)).1 .pipe _ (.refl _)

/-- What a run leaves remembered, what it finds, and when it ends at a bound. -/
theorem Sound.step (h : p.Sound) : p.run.2.Sound ∧
    (p.run.1 = p.outcome (.ok (reading (constant? p.limits) .pipe p.text)) ∨
      p.run.1 = .error (.tooDeep p.limits.parse) ∧
        ∃ e, boundedParse p.limits (p.limits.parse - p.spent) p.text = .error e) := by
  obtain ⟨sound, result⟩ := (agree_run p).2 p.memory h
  refine ⟨sound, ?_⟩
  rcases result with h | ⟨e, e', h, h'⟩
  · exact .inl (congrArg p.outcome h)
  · exact .inr ⟨congrArg p.outcome h, e', h'⟩

/-- A parser after so many runs. -/
def after (text : List Char) (limits : Limits) : Nat → Parser
  | 0 => ofText text limits
  | runs + 1 => (after text limits runs).run.2

theorem after_spec (text : List Char) (limits : Limits) (runs : Nat) : (after text limits runs).Sound ∧
    (after text limits runs).text = text ∧ (after text limits runs).limits = limits := by
  induction runs with
  | zero => exact ⟨sound_ofText text limits, rfl, rfl⟩
  | succ runs ih =>
    obtain ⟨sound, htext, hlimits⟩ := ih
    exact ⟨sound.step.1, htext, hlimits⟩

/-- Every run of a parser finds what the text is, or reports its depth. -/
theorem run_after (text : List Char) (limits : Limits) (runs : Nat) :
    (after text limits runs).run.1 = (ofText text limits).outcome (.ok (reading (constant? limits) .pipe text)) ∨
      (after text limits runs).run.1 = .error (.tooDeep limits.parse) := by
  obtain ⟨sound, htext, hlimits⟩ := after_spec text limits runs
  have step := sound.step.2
  rw [htext, hlimits] at step
  rcases step with h | ⟨h, -⟩
  · left
    rw [h]
    unfold outcome
    rw [htext, hlimits]
    rfl
  · exact .inr h

end Parser

/-! ## Query text -/

section Text

variable {limits : Limits} {w n : List Char} {e : Expr}

theorem parse_of_normal (hn : normalizeChars w = .ok n) :
    parse limits (String.ofList w) = (Parser.ofText n limits).run.1 := by
  unfold parse
  rw [String.toList_ofList, hn]
  rfl

variable (limits) in
/-- Parsing is what the normal form is as a whole, or ends at the bound. -/
theorem parse_reads (hn : normalizeChars w = .ok n) :
    parse limits (String.ofList w) = .error (.tooDeep limits.parse) ∨
      parse limits (String.ofList w) =
        match reading (constant? limits) .pipe n with
        | some e => .ok e
        | none => .error (.noMatch (String.ofList n)) := by
  rw [parse_of_normal hn]
  rcases Parser.run_after n limits 0 with (h : (Parser.ofText n limits).run.1 = _) | h
  · right
    rw [h]
    show (Parser.ofText n limits).outcome (.ok (reading (constant? limits) .pipe n)) = _
    rcases reading (constant? limits) .pipe n with _ | e <;> rfl
  · left
    exact h

theorem parse_ok (h : parse limits (String.ofList w) = .ok e) :
    ∃ n, normalizeChars w = .ok n ∧ reading (constant? limits) .pipe n = some e := by
  rcases hn : normalizeChars w with cause | n
  · unfold parse at h
    rw [String.toList_ofList, hn] at h
    cases h
  · refine ⟨n, rfl, ?_⟩
    rcases parse_reads limits hn with deep | reads
    · rw [deep] at h
      cases h
    · rw [reads] at h
      split at h
      · cases h
        assumption
      · cases h

/-- Where parsing without memory stays within the bound, parsing finds the same. -/
theorem parse_of_bounded {r : Option Expr} (hn : normalizeChars w = .ok n)
    (hb : boundedParse limits limits.parse n = .ok r) :
    parse limits (String.ofList w) = (Parser.ofText n limits).outcome (.ok r) := by
  rw [parse_of_normal hn]
  rcases (Parser.sound_ofText n limits).step.2 with h | ⟨-, e, he⟩
  · rw [h, level_ok hb]
    rfl
  · exact absurd (hb.symm.trans he) nofun

theorem parse_of_lexemes {ls : List Lexeme} (cut : lexemes w = .ok ls)
    (bounded : boundedParse limits limits.parse (writeFrom false false ls) = .ok (some e)) :
    parse limits (String.ofList w) = .ok e := by
  have normal : normalizeChars w = .ok (writeFrom false false ls) := by
    unfold normalizeChars
    rw [cut]
    rfl
  exact parse_of_bounded normal bounded

end Text

/-- A parser finds what the recursion without memory and without bound finds, or reports its depth;
    and where the recursion without memory stays within the same depth, it does not report it. -/
theorem memory_refines_recursion (limits : Limits) (text : List Char) :
    (∀ parse walk, IsRecursion (constant? limits) parse walk ↔
      parse = readSpan (constant? limits) ∧ walk = followSpan (constant? limits)) ∧
    (∀ l s t, s.chars = t.chars → readSpan (constant? limits) l s = readSpan (constant? limits) l t) ∧
    ((Parser.ofText text limits).run.1 = .error (.tooDeep limits.parse) ∨
      (Parser.ofText text limits).run.1 =
        (Parser.ofText text limits).outcome (.ok (readSpan (constant? limits) .pipe ⟨0, text⟩).run.run)) ∧
    ((∃ e, boundedParse limits limits.parse text = .error e) ∨
      (Parser.ofText text limits).run.1 = (Parser.ofText text limits).outcome (boundedParse limits limits.parse text)) := by
  refine ⟨fun parse walk => ⟨IsRecursion.unique, ?_⟩, fun l s t h => ?_, ?_⟩
  · rintro ⟨rfl, rfl⟩
    exact isRecursion_readSpan
  · unfold readSpan
    rw [h]
  · obtain ⟨-, result⟩ := (Parser.sound_ofText text limits).step
    refine ⟨?_, ?_⟩
    · rcases result with h | ⟨h, -⟩
      · exact .inr h
      · exact .inl h
    · rcases hb : boundedParse limits limits.parse text with e | r
      · exact .inl ⟨e, rfl⟩
      · right
        rcases result with h | ⟨-, e, he⟩
        · rw [h, level_ok hb]
          rfl
        · rw [show (Parser.ofText text limits).limits.parse - (Parser.ofText text limits).spent = limits.parse from rfl] at he
          exact absurd (hb.symm.trans he) nofun

end Groq.Query
