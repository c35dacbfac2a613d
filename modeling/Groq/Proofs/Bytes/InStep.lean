/-
  Groq.Proofs.Bytes.InStep — a run over characters and a run over bytes, in step.

  Two runs are in step if, from memories that hold the same (`Alike`), they end the same way
  (`SameEnd`) and leave memories that hold the same. A fault is no way to end, so what is in step
  with a run over characters has none. Sequence, choice and lists keep runs in step, and what is
  remembered for a span is remembered for its range.
-/

import Groq.Proofs.Bytes.Scan
import Groq.Proofs.Query.Memory

namespace Groq.Query

/-- Two memories of a text that hold the same for the same parts of it. -/
def Alike (source : List Char) (memory : Memory) (memory' : ByteMemory) : Prop :=
  ∀ l s b, Covers source s b → memory'[(b, l)]? = memory[s.spot l]?

/-- Two runs end alike: with related values, with none, or at the same bound. -/
inductive SameEnd {α β : Type} (R : α → β → Prop) : Except Exhausted (Option α) → Except Stop (Option β) → Prop
  | found {a : α} {b : β} : R a b → SameEnd R (.ok (some a)) (.ok (some b))
  | missed : SameEnd R (.ok none) (.ok none)
  | exhausted (cause : Exhausted) : SameEnd R (.error cause) (.error (.exhausted cause))

def InStep {α β : Type} (source : List Char) (R : α → β → Prop) (x : OptionT Remembering α) (y : OptionT Checked β) :
    Prop :=
  ∀ memory memory', Alike source memory memory' →
    SameEnd R (x.run.run.run memory).1 (y.run.run.run memory').1 ∧
      Alike source (x.run.run.run memory).2 (y.run.run.run memory').2

/-! ## Steps -/

section Steps

variable {source : List Char} {α β γ δ : Type} {R : α → β → Prop} {S : γ → δ → Prop}

theorem inStep_pure {a : α} {b : β} (h : R a b) : InStep source R (pure a) (pure b) :=
  fun _ _ alike => ⟨.found h, alike⟩

theorem inStep_failure : InStep source R failure failure := fun _ _ alike => ⟨.missed, alike⟩

theorem inStep_require {a : Option α} {b : Option β} (h : Option.Rel R a b) :
    InStep source R (require a) (require b) := by
  cases h with
  | none => exact inStep_failure
  | some h => exact inStep_pure h

theorem inStep_same (a : Option α) : InStep source Eq (require a) (require a) := by
  apply inStep_require
  cases a with
  | none => exact .none
  | some a => exact .some rfl

variable {x : OptionT Remembering α} {y : OptionT Checked β}

theorem InStep.bind {f : α → OptionT Remembering γ} {g : β → OptionT Checked δ} (first : InStep source R x y)
    (next : ∀ a b, R a b → InStep source S (f a) (g b)) : InStep source S (x >>= f) (y >>= g) := by
  intro memory memory' alike
  obtain ⟨ends, alike⟩ := first memory memory' alike
  rw [run_bind_optional, run_bind_optional]
  rcases hx : x.run.run.run memory with ⟨result, left⟩
  rcases hy : y.run.run.run memory' with ⟨result', left'⟩
  rw [hx, hy] at ends alike
  cases ends with
  | found h => exact next _ _ h left left' alike
  | missed => exact ⟨.missed, alike⟩
  | exhausted cause => exact ⟨.exhausted cause, alike⟩

/-- Behind the same value. -/
theorem InStep.bind_same {x : OptionT Remembering α} {y : OptionT Checked α} {f : α → OptionT Remembering γ}
    {g : α → OptionT Checked δ} (first : InStep source Eq x y) (next : ∀ a, InStep source S (f a) (g a)) :
    InStep source S (x >>= f) (y >>= g) := by
  apply first.bind
  rintro a _ rfl
  exact next a

theorem InStep.orElse {x' : OptionT Remembering α} {y' : OptionT Checked β} (first : InStep source R x y)
    (second : InStep source R x' y') : InStep source R (x <|> x') (y <|> y') := by
  intro memory memory' alike
  obtain ⟨ends, alike⟩ := first memory memory' alike
  rw [run_orElse_optional, run_orElse_optional]
  rcases hx : x.run.run.run memory with ⟨result, left⟩
  rcases hy : y.run.run.run memory' with ⟨result', left'⟩
  rw [hx, hy] at ends alike
  cases ends with
  | found h => exact ⟨.found h, alike⟩
  | missed => exact second left left' alike
  | exhausted cause => exact ⟨.exhausted cause, alike⟩

theorem InStep.map {f : α → γ} {g : β → δ} (h : InStep source R x y) (next : ∀ a b, R a b → S (f a) (g b)) :
    InStep source S (f <$> x) (g <$> y) := by
  rw [← bind_pure_comp, ← bind_pure_comp]
  exact h.bind fun a b hab => inStep_pure (next a b hab)

/-- The same is made of the same value. -/
theorem InStep.congr {x : OptionT Remembering α} {y : OptionT Checked α} (f : α → γ) (h : InStep source Eq x y) :
    InStep source Eq (f <$> x) (f <$> y) :=
  h.map fun _ _ same => congrArg f same

theorem inStep_ite {p q : Prop} [Decidable p] [Decidable q] {x' : OptionT Remembering α} {y' : OptionT Checked β}
    (same : q ↔ p) (yes : p → InStep source R x y) (no : ¬ p → InStep source R x' y') :
    InStep source R (if p then x else x') (if q then y else y') := by
  by_cases h : p
  · rw [if_pos h, if_pos (same.mpr h)]
    exact yes h
  · rw [if_neg h, if_neg (mt same.mp h)]
    exact no h

theorem inStep_mapM {f : α → OptionT Remembering γ} {g : β → OptionT Checked δ} {items : List α} {items' : List β}
    (h : List.Forall₂ R items items') (each : ∀ a b, R a b → InStep source S (f a) (g b)) :
    InStep source (List.Forall₂ S) (items.mapM f) (items'.mapM g) := by
  induction h with
  | nil => exact inStep_pure .nil
  | cons first _ ih =>
    rw [List.mapM_cons, List.mapM_cons]
    refine (each _ _ first).bind fun c d same => ?_
    exact ih.bind fun cs ds others => inStep_pure (.cons same others)

/-- Of pairs of which each gives the same, the lists are the same. -/
theorem inStep_mapM_same {f : α → OptionT Remembering γ} {g : β → OptionT Checked γ} {items : List α} {items' : List β}
    (h : List.Forall₂ R items items') (each : ∀ a b, R a b → InStep source Eq (f a) (g b)) :
    InStep source Eq (items.mapM f) (items'.mapM g) := by
  rw [← List.forall₂_eq_eq_eq]
  exact inStep_mapM h each

theorem inStep_firstSuccess {f : α → OptionT Remembering γ} {g : β → OptionT Checked δ} {items : List α}
    {items' : List β} (h : List.Forall₂ R items items') (each : ∀ a b, R a b → InStep source S (f a) (g b)) :
    InStep source S (firstSuccess f items) (firstSuccess g items') := by
  induction h with
  | nil => exact inStep_failure
  | cons first _ ih => exact (each _ _ first).orElse ih

theorem require_bind {m : Type → Type} [Monad m] [LawfulMonad m] {α β : Type} {a : Option α} {x : α} (h : a = some x)
    (f : α → OptionT m β) : require a >>= f = f x := by
  rw [h]
  exact pure_bind x f

/-- What has to be there is there. -/
theorem checked_some {a : Option β} {b : β} (h : a = some b) : checked a = pure b := by
  rw [h]
  rfl

/-- Going on with what has to be there. -/
theorem checked_bind {a : Option β} {b : β} (h : a = some b) (g : β → OptionT Checked δ) :
    checked a >>= g = g b := by
  rw [checked_some h, pure_bind]

end Steps

/-! ## Memory -/

section Remembered

variable {source : List Char} {memory : Memory} {memory' : ByteMemory} {l : Level} {s : Span} {b : ByteSpan}

theorem alike_empty : Alike source ∅ ∅ := by
  intro l s b _
  simp

theorem Alike.insert (alike : Alike source memory memory') (h : Covers source s b) (result : Option Expr) :
    Alike source (memory.insert (s.spot l) result) (memory'.insert (b, l) result) := by
  intro l' t c ht
  have same : ((b, l) == (c, l')) = (s.spot l == t.spot l') := by
    rw [Bool.eq_iff_iff, beq_iff_eq, beq_iff_eq, Prod.mk.injEq, covers_eq h ht]
    simp only [Span.spot, Spot.mk.injEq]
    exact And.comm
  rw [Std.HashMap.getElem?_insert, Std.HashMap.getElem?_insert, same, alike l' t c ht]

/-- What is found again is found in both, and what is computed is kept in both. -/
theorem InStep.remembered {x : OptionT Remembering Expr} {y : OptionT Checked Expr} (h : Covers source s b)
    (compute : InStep source Eq x y) : InStep source Eq (remembered l s x) (rememberedBytes l b y) := by
  intro memory memory' alike
  have lookUp : (rememberedBytes l b y).run.run.run memory' =
      memory'[(b, l)]?.elim
        ((y.run >>= fun result => modify (·.insert (b, l) result) >>= fun _ => pure result : Checked _).run.run memory')
        fun result => (.ok result, memory') := by
    show ((get : Checked ByteMemory) >>= _).run.run memory' = _
    have fetched : (get : Checked ByteMemory).run.run memory' = (.ok memory', memory') := rfl
    rw [run_bind_remembering, fetched]
    dsimp only
    rcases memory'[(b, l)]? with _ | result <;> rfl
  rw [lookUp, alike l s b h]
  rcases found : memory[s.spot l]? with _ | result
  · obtain ⟨ends, left⟩ := compute memory memory' alike
    rw [Option.elim_none, remembered_computed found, run_bind_remembering]
    rw [run_bind_remembering]
    rcases hx : x.run.run.run memory with ⟨result, after⟩
    rcases hy : y.run.run.run memory' with ⟨result', after'⟩
    rw [hx, hy] at ends left
    cases ends with
    | found same =>
      cases same
      exact ⟨.found rfl, left.insert h _⟩
    | missed => exact ⟨.missed, left.insert h _⟩
    | exhausted cause => exact ⟨.exhausted cause, left⟩
  · rw [remembered_found found]
    refine ⟨?_, alike⟩
    rcases result with _ | e
    · exact .missed
    · exact .found rfl

end Remembered

/-! ## Coming to the end of the depth -/

section Depth

variable {source : List Char} {α β : Type} {R : α → β → Prop}

theorem inStep_exhausted (cause : Exhausted) :
    InStep source R (OptionT.mk (throw cause)) (OptionT.lift (throw (.exhausted cause))) :=
  fun _ _ alike => ⟨.exhausted cause, alike⟩

theorem SameEnd.inTraversals {x : Except Exhausted (Option α)} {y : Except Stop (Option β)} (h : SameEnd R x y) :
    SameEnd R (x.mapError fun _ => .inTraversals) (y.mapError Stop.inTraversals) := by
  cases h with
  | found h => exact .found h
  | missed => exact .missed
  | exhausted cause => exact .exhausted .inTraversals

theorem InStep.inTraversals {x : OptionT Remembering α} {y : OptionT Checked β} (h : InStep source R x y) :
    InStep source R (OptionT.mk (Attempts.inTraversals x.run)) (OptionT.mk (ExceptT.adapt Stop.inTraversals y.run)) := by
  intro memory memory' alike
  obtain ⟨ends, left⟩ := h memory memory' alike
  have adapted : (ExceptT.adapt Stop.inTraversals y.run).run.run memory' =
      ((y.run.run.run memory').1.mapError Stop.inTraversals, (y.run.run.run memory').2) := by
    rw [ExceptT.run_adapt, StateT.run_map]
    rcases y.run.run.run memory' with ⟨e | a, next⟩
    · rfl
    · rfl
  rw [OptionT.run_mk, OptionT.run_mk, run_inTraversals, adapted]
  exact ⟨ends.inTraversals, left⟩

end Depth

end Groq.Query
