/-
  Groq.Proofs.Bytes.Scan — scanning bytes and scanning text.

  The scanners look for ASCII characters, and no byte of any other character is ASCII. So they find
  the same on the bytes of a text as on the text, at the byte offset of where they find it.
  Proved: that for the surface (`surface_bytes`), closing brackets (`closeFrom_bytes`), literals
  (`literalRest_bytes`) and names (`nameAt_bytes`), and that every byte that is looked at is there.
-/

import Groq.Proofs.Bytes.Grammar
import Groq.Proofs.Query.Plain
import Mathlib.Data.List.Forall2

namespace Groq.Query

/-! ## Runs -/

/-- A run of characters that are all ASCII is the same run of bytes. -/
theorem run_bytes {p : Char → Bool} (ascii : ∀ c, p c = true → c.toNat < 128) (cs : List Char) :
    (bytes cs).takeWhile p = cs.takeWhile p ∧ (bytes cs).dropWhile p = bytes (cs.dropWhile p) := by
  induction cs using bytes_induction with
  | nil => exact ⟨rfl, rfl⟩
  | ascii c cs _ split ih =>
    rw [split]
    by_cases h : p c = true
    · simp only [List.takeWhile_cons, List.dropWhile_cons, if_pos h, ih.1, ih.2, and_self]
    · simp only [List.takeWhile_cons, List.dropWhile_cons, if_neg h, split, and_self]
  | other c cs d front large single split others _ =>
    have stops {e : Char} (he : 128 ≤ e.toNat) : ¬ p e = true := by
      intro h
      have := ascii e h
      omega
    have first := stops (others d List.mem_cons_self)
    rw [split]
    simp only [List.cons_append, List.takeWhile_cons, List.dropWhile_cons, if_neg first, if_neg (stops large), split,
      and_self]

theorem ascii_of_isBare {c : Char} (h : isBare c = true) : c.toNat < 128 := by
  simp only [isBare, Bool.and_eq_true, decide_eq_true_eq] at h
  exact h.2

theorem ascii_of_isNameChar {c : Char} (h : isNameChar c = true) : c.toNat < 128 := ascii_of_isBare (isBare_of_isNameChar h)

theorem ascii_of_isDigit {c : Char} (h : c.isDigit = true) : c.toNat < 128 :=
  ascii_of_isNameChar (isNameChar_of_isDigit h)

theorem head_bytes {c : Char} (ascii : c.toNat < 128) (cs : List Char) :
    (bytes cs).head? = some c ↔ cs.head? = some c := by
  rcases cs with _ | ⟨d, cs⟩
  · exact Iff.rfl
  · obtain ⟨e, rest, text, first⟩ := bytes_first d cs
    rw [text, List.head?_cons, List.head?_cons, Option.some.injEq, Option.some.injEq]
    exact first.is ascii

theorem nameAt_bytes (cs : List Char) : nameAt (bytes cs) = nameAt cs := by
  induction cs using bytes_induction with
  | nil => rfl
  | ascii c cs _ split _ =>
    rw [split]
    simp only [nameAt, (run_bytes (fun _ => ascii_of_isNameChar) cs).1]
  | other c cs d front large single split others _ =>
    have outside {e : Char} (he : 128 ≤ e.toNat) : ¬ beginsName e = true := by
      intro h
      have := ascii_of_isNameChar (isNameChar_of_beginsName h)
      omega
    rw [split]
    simp only [List.cons_append, nameAt, if_neg (outside large), if_neg (outside (others d List.mem_cons_self))]

theorem name_ascii (cs : List Char) : ∀ c ∈ nameAt cs, c.toNat < 128 :=
  fun c hc => ascii_of_isNameChar (name_isNameChar cs c hc)

theorem ascii_of_all {cs : List Char} (h : cs.all (·.toNat < 128) = true) : ∀ c ∈ cs, c.toNat < 128 :=
  fun c hc => of_decide_eq_true (List.all_eq_true.mp h c hc)

/-- ASCII text is its own bytes. -/
theorem bytes_of_ascii {cs : List Char} (ascii : ∀ c ∈ cs, c.toNat < 128) : bytes cs = cs := by
  induction cs with
  | nil => rfl
  | cons c cs ih =>
    obtain ⟨hc, others⟩ := List.forall_mem_cons.mp ascii
    rw [bytes_ascii hc, ih others]

theorem isPrefixOf_bytes {t : List Char} (ascii : ∀ c ∈ t, c.toNat < 128) (cs : List Char) :
    t.isPrefixOf (bytes cs) = t.isPrefixOf cs := by
  induction t generalizing cs with
  | nil => rw [List.isPrefixOf_nil_left, List.isPrefixOf_nil_left]
  | cons c t ih =>
    obtain ⟨hc, others⟩ := List.forall_mem_cons.mp ascii
    rcases cs with _ | ⟨d, cs⟩
    · rfl
    · by_cases same : d = c
      · subst same
        rw [bytes_ascii hc, List.isPrefixOf_cons_cons, List.isPrefixOf_cons_cons, ih others]
      · obtain ⟨e, rest, text, first⟩ := bytes_first d cs
        have differs : (c == e) = false := beq_eq_false_iff_ne.mpr fun he => same ((first.is hc).mp he.symm)
        have differs' : (c == d) = false := beq_eq_false_iff_ne.mpr (Ne.symm same)
        rw [text, List.isPrefixOf_cons_cons, List.isPrefixOf_cons_cons, differs, differs']
        rfl

/-! ## Related results -/

section Related

variable {α β γ δ : Type} {R : α → β → Prop} {S : γ → δ → Prop} {a : Option α} {b : Option β}

theorem rel_bind {f : α → Option γ} {g : β → Option δ} (h : Option.Rel R a b)
    (next : ∀ x y, R x y → Option.Rel S (f x) (g y)) : Option.Rel S (a.bind f) (b.bind g) := by
  cases h with
  | none => exact .none
  | some h => exact next _ _ h

theorem rel_map {f : α → γ} {g : β → δ} (h : Option.Rel R a b) (next : ∀ x y, R x y → S (f x) (g y)) :
    Option.Rel S (a.map f) (b.map g) := by
  cases h with
  | none => exact .none
  | some h => exact .some (next _ _ h)

theorem rel_imp {T : α → β → Prop} (h : Option.Rel R a b) (imp : ∀ x y, R x y → T x y) : Option.Rel T a b := by
  cases h with
  | none => exact .none
  | some h => exact .some (imp _ _ h)

theorem rel_with (h : Option.Rel R a b) :
    Option.Rel (fun x y => R x y ∧ a = some x) a b := by
  cases h with
  | none => exact .none
  | some h => exact .some ⟨h, rfl⟩

theorem rel_map_self (f : α → γ) (a : Option α) : Option.Rel (fun x y => x = f y) (a.map f) a := by
  cases a with
  | none => exact .none
  | some a => exact .some rfl

theorem rel_of_some {x : β} (h : Option.Rel R a (some x)) : ∃ y, a = some y ∧ R y x := by
  cases h with
  | some h => exact ⟨_, rfl, h⟩

end Related

/-! ## Reading past other characters -/

/-- Where a reader is behind a character that is not ASCII. -/
def Scan.past (s : Scan) : Scan :=
  match s.mode with
  | .escape quote => { s with mode := .literal quote }
  | _ => s

/-- Literals end at an ASCII quote. -/
def Scan.Quotes (s : Scan) : Prop := ∀ quote, s.mode = .literal quote ∨ s.mode = .escape quote → quote.toNat < 128

theorem quotes_code (closers : List Char) : (⟨closers, .code⟩ : Scan).Quotes := by
  rintro quote (h | h)
  · cases h
  · cases h

theorem quotes_literal {quote : Char} (ascii : quote.toNat < 128) (closers : List Char) :
    (⟨closers, .literal quote⟩ : Scan).Quotes := by
  rintro q (h | h)
  · cases h
    exact ascii
  · cases h

theorem quotes_escape {quote : Char} (ascii : quote.toNat < 128) (closers : List Char) :
    (⟨closers, .escape quote⟩ : Scan).Quotes := by
  rintro q (h | h)
  · cases h
  · cases h
    exact ascii

section Past

variable {s next : Scan} {c : Char}

theorem Scan.Quotes.step (hs : s.Quotes) (h : s.step? c = some next) : next.Quotes := by
  obtain ⟨closers, mode⟩ := s
  cases mode with
  | escape quote =>
    cases h
    exact quotes_literal (hs quote (.inr rfl)) closers
  | literal quote =>
    simp only [Scan.step?] at h
    split at h
    · cases h
      exact quotes_escape (hs quote (.inl rfl)) closers
    split at h
    · cases h
      exact quotes_code closers
    · cases h
      exact hs
  | code =>
    simp only [Scan.step?] at h
    split at h
    · rename_i quoted
      cases h
      apply quotes_literal
      rcases quoted with rfl | rfl
      · decide
      · decide
    split at h
    · cases h
      exact quotes_code _
    split at h
    · split at h
      · split at h
        · cases h
          exact quotes_code _
        · cases h
      · cases h
    · cases h
      exact quotes_code _

theorem step_other (hs : s.Quotes) (large : 128 ≤ c.toNat) : s.step? c = some s.past := by
  have ne {d : Char} (hd : d.toNat < 128) : c ≠ d := by
    rintro rfl
    omega
  obtain ⟨closers, mode⟩ := s
  cases mode with
  | escape quote => rfl
  | literal quote => simp [Scan.step?, Scan.past, ne (hs quote (.inl rfl)), ne (show ('\\').toNat < 128 by decide)]
  | code =>
    have opener : closerOf? c = none := by
      unfold closerOf?
      split
      · exact absurd large (by decide)
      · exact absurd large (by decide)
      · exact absurd large (by decide)
      · rfl
    have closer : isCloser c = false := by
      rw [Bool.eq_false_iff]
      intro h
      simp only [isCloser, Bool.or_eq_true, decide_eq_true_eq] at h
      rcases h with (rfl | rfl) | rfl
      all_goals exact absurd large (by decide)
    simp [Scan.step?, Scan.past, opener, closer, ne (show ('"').toNat < 128 by decide),
      ne (show ('\'').toNat < 128 by decide)]

theorem past_past (s : Scan) : s.past.past = s.past := by
  obtain ⟨closers, mode⟩ := s
  cases mode <;> rfl

theorem past_closers (s : Scan) : s.past.closers = s.closers := by
  obtain ⟨closers, mode⟩ := s
  cases mode <;> rfl

theorem Scan.Quotes.past (hs : s.Quotes) : s.past.Quotes :=
  hs.step (step_other hs (show 128 ≤ (Char.ofNat 128).toNat by decide))

theorem surfaceFrom_hidden (step : s.step? c = some next) (large : 128 ≤ c.toNat) (offset : Nat)
    (before : Option Char) (x : List Char) :
    surfaceFrom s offset before (c :: x) = surfaceFrom next (offset + 1) (some c) x := by
  have hidden : onSurface s next c = false := by simp [onSurface, Nat.not_lt.mpr large]
  simp [surfaceFrom, step, hidden]

/-- Bytes that are not ASCII are read past, and none of them is on the surface. -/
theorem surfaceFrom_other {d : Char} {front : List Char} (others : ∀ e ∈ d :: front, 128 ≤ e.toNat) (hs : s.Quotes)
    (offset : Nat) (before : Option Char) (x : List Char) : surfaceFrom s offset before (d :: front ++ x) =
      surfaceFrom s.past (offset + (d :: front).length) ((d :: front).getLast?) x := by
  have hd := others d List.mem_cons_self
  rw [List.cons_append, surfaceFrom_hidden (step_other hs hd) hd]
  induction front generalizing s d offset with
  | nil => rfl
  | cons e front ih =>
    obtain ⟨-, others⟩ := List.forall_mem_cons.mp others
    have he := others e List.mem_cons_self
    have further := ih others hs.past (offset + 1) he
    rw [past_past] at further
    have length : offset + (d :: e :: front).length = offset + 1 + (e :: front).length := by
      simp only [List.length_cons]
      omega
    rw [List.cons_append, surfaceFrom_hidden (step_other hs.past he) he, past_past, further, List.getLast?_cons_cons,
      length]

theorem closeFrom_other {d : Char} {front : List Char} (others : ∀ e ∈ d :: front, 128 ≤ e.toNat) (hs : s.Quotes)
    (waiting : s.closers ≠ []) (offset : Nat) (x : List Char) :
    closeFrom s offset (d :: front ++ x) = closeFrom s.past (offset + (d :: front).length) x := by
  have waits : ¬ (s.past.closers = [] ∧ s.past.mode = .code) := by
    rw [past_closers]
    exact fun h => waiting h.1
  induction front generalizing s d offset with
  | nil =>
    simp only [List.cons_append, List.nil_append, closeFrom, step_other hs (others d List.mem_cons_self),
      Option.bind_eq_bind, Option.bind_some]
    rw [if_neg waits]
    rfl
  | cons e front ih =>
    obtain ⟨hd, others⟩ := List.forall_mem_cons.mp others
    have further := ih others hs.past (by rwa [past_closers]) (offset + 1) (by rwa [past_past])
    rw [past_past] at further
    rw [List.cons_append, closeFrom]
    simp only [step_other hs hd, Option.bind_eq_bind, Option.bind_some]
    rw [if_neg waits, further, List.length_cons, Nat.add_assoc, Nat.add_comm 1]
    rfl

end Past

/-! ## Brackets -/

/-- A closing bracket, by characters from `n` and by bytes from `k`. -/
def SameClose (cs : List Char) (n k close close' : Nat) : Prop := ∃ inside c after, cs = inside ++ c :: after ∧
  isCloser c = true ∧ close = n + inside.length ∧ close' = k + (bytes inside).length

theorem SameClose.cons {c : Char} {cs : List Char} {n k close close' : Nat}
    (h : SameClose cs (n + 1) (k + (bytes [c]).length) close close') : SameClose (c :: cs) n k close close' := by
  obtain ⟨inside, d, after, rfl, hd, rfl, rfl⟩ := h
  refine ⟨c :: inside, d, after, rfl, hd, ?_, ?_⟩
  · rw [List.length_cons]
    omega
  · rw [bytes_cons c inside, List.length_append]
    omega

/-- The closing bracket is found where it is, in characters and in bytes. -/
theorem closeFrom_bytes {s : Scan} {cs : List Char} (hs : s.Quotes) (waiting : s.closers ≠ []) (n k : Nat) :
    Option.Rel (SameClose cs n k) (closeFrom s n cs) (closeFrom s k (bytes cs)) := by
  have further {c : Char} {cs : List Char} {n k : Nat} {a b : Option Nat}
      (h : Option.Rel (SameClose cs (n + 1) (k + (bytes [c]).length)) a b) : Option.Rel (SameClose (c :: cs) n k) a b := by
    cases h with
    | none => exact .none
    | some h => exact .some h.cons
  induction cs using bytes_induction generalizing s n k with
  | nil => exact .none
  | ascii c cs ascii split ih =>
    rw [split]
    simp only [closeFrom, Option.bind_eq_bind]
    rcases step : s.step? c with _ | next
    · exact .none
    · simp only [Option.bind_some]
      by_cases done : next.closers = [] ∧ next.mode = .code
      · rw [if_pos done, if_pos done]
        exact .some ⟨[], c, cs, rfl, (step_closes step waiting done.1).1, rfl, rfl⟩
      · rw [if_neg done, if_neg done]
        have still : next.closers ≠ [] := fun empty => done ⟨empty, (step_closes step waiting empty).2⟩
        apply further
        rw [bytes_single_ascii ascii]
        exact ih (hs.step step) still (n + 1) (k + 1)
  | other c cs d front large single split others ih =>
    have waits : ¬ (s.past.closers = [] ∧ s.past.mode = .code) := by
      rw [past_closers]
      exact fun h => waiting h.1
    rw [split, closeFrom_other others hs waiting, ← single]
    simp only [closeFrom, step_other hs large, Option.bind_eq_bind, Option.bind_some]
    rw [if_neg waits]
    exact further (ih hs.past (by rwa [past_closers]) (n + 1) (k + (bytes [c]).length))

/-! ## The surface -/

/-- A place of a text and the same place of its bytes. -/
structure SamePlace (cs : List Char) (p q : Place) : Prop where
  cut : ∃ front, cs = front ++ p.rest ∧ p.offset = front.length ∧ p.before = front.getLast? ∧
    q.offset = (bytes front).length ∧ q.before = (bytes front).getLast?
  rest : q.rest = bytes p.rest
  ascii : ∃ c rest, p.rest = c :: rest ∧ c.toNat < 128

theorem surfaceFrom_bytes {s : Scan} {done cs : List Char} (hs : s.Quotes) :
    Option.Rel (List.Forall₂ (SamePlace (done ++ cs))) (surfaceFrom s done.length done.getLast? cs)
      (surfaceFrom s (bytes done).length (bytes done).getLast? (bytes cs)) := by
  induction cs using bytes_induction generalizing s done with
  | nil =>
    show Option.Rel _ (if s = Scan.start then some [] else none) (if s = Scan.start then some [] else none)
    split
    · exact .some .nil
    · exact .none
  | ascii c cs ascii split ih =>
    have text : done ++ [c] ++ cs = done ++ c :: cs := by simp
    rw [split]
    simp only [surfaceFrom, Option.bind_eq_bind]
    rcases step : s.step? c with _ | next
    · exact .none
    · have further := @ih next (done ++ [c]) (hs.step step)
      rw [bytes_append, bytes_single_ascii ascii, List.getLast?_concat, List.getLast?_concat, List.length_append,
        List.length_append, text] at further
      simp only [Option.bind_some]
      refine rel_bind further fun places places' same => ?_
      refine .some ?_
      split
      · exact .cons ⟨⟨done, rfl, rfl, rfl, rfl, rfl⟩, split.symm, c, cs, rfl, ascii⟩ same
      · exact same
  | other c cs d front large single split others ih =>
    have text : done ++ [c] ++ cs = done ++ c :: cs := by simp
    have further := @ih s.past (done ++ [c]) hs.past
    rw [bytes_append, single, List.getLast?_concat, List.length_append, List.length_append, List.getLast?_append,
      text] at further
    rw [surfaceFrom_hidden (step_other hs large) large, split, surfaceFrom_other others hs]
    exact further

theorem surface_bytes (cs : List Char) :
    Option.Rel (List.Forall₂ (SamePlace cs)) (surface? cs) (surface? (bytes cs)) :=
  @surfaceFrom_bytes Scan.start [] cs (quotes_code [])

/-! ## Places -/

theorem last_bytes {c : Char} (ascii : c.toNat < 128) (cs : List Char) :
    (bytes cs).getLast? = some c ↔ cs.getLast? = some c := by
  rcases List.eq_nil_or_concat cs with rfl | ⟨init, d, rfl⟩
  · exact Iff.rfl
  · rw [List.concat_eq_append, bytes_append, List.getLast?_concat]
    by_cases hd : d.toNat < 128
    · rw [bytes_single_ascii hd, List.getLast?_concat]
    · have large := Nat.not_lt.mp hd
      have others := bytes_single_other large
      have he := List.getLast?_eq_some_getLast (bytes_single_ne_nil d)
      have ne {x : Char} (hx : 128 ≤ x.toNat) : x ≠ c := by
        rintro rfl
        omega
      rw [List.getLast?_append, he]
      simp [ne large, ne (others _ (List.mem_of_getLast? he))]

namespace SamePlace

variable {cs : List Char} {p q : Place} (h : SamePlace cs p q)

include h

theorem startsWith (t : String) (ascii : t.toList.all (·.toNat < 128) = true) : q.startsWith t = p.startsWith t := by
  unfold Place.startsWith
  rw [h.rest, isPrefixOf_bytes (ascii_of_all ascii)]

theorem before {c : Char} (ascii : c.toNat < 128) : (q.before = some c) = (p.before = some c) := by
  obtain ⟨front, -, -, hp, -, hq⟩ := h.cut
  rw [hp, hq]
  exact propext (last_bytes ascii front)

theorem isDoubled : q.isDoubled = p.isDoubled := by
  obtain ⟨c, rest, text, ascii⟩ := h.ascii
  have head : ((bytes rest).head? == some c) = (rest.head? == some c) := by
    rw [Bool.eq_iff_iff, beq_iff_eq, beq_iff_eq]
    exact head_bytes ascii rest
  have before : (q.before == some c) = (p.before == some c) := by
    rw [Bool.eq_iff_iff, beq_iff_eq, beq_iff_eq, h.before ascii]
  unfold Place.isDoubled
  rw [h.rest, text, bytes_ascii ascii]
  show ((bytes rest).head? == some c || q.before == some c) = _
  rw [head, before]

/-- A level finds the same operator. -/
theorem find {l : Level} {r : InfixRule} (hr : l.infix? = some r) : r.find? q = r.find? p := by
  have starts (t : String) (ascii : t.toList.all (·.toNat < 128) = true) := h.startsWith t ascii
  cases l <;> cases hr
  · simp only [orAt?, starts "||" (by decide)]
  · simp only [andAt?, starts "&&" (by decide)]
  · simp only [comparisonAt?, starts "==" (by decide), starts "!=" (by decide), starts "<=" (by decide),
      starts ">=" (by decide), starts "<" (by decide), starts ">" (by decide), starts " in " (by decide),
      starts " match " (by decide), h.before (show ('=').toNat < 128 by decide), h.before (show ('-').toNat < 128 by decide)]
  · simp only [sumAt?, starts "+" (by decide), starts "-" (by decide), starts "->" (by decide)]
  · simp only [productAt?, starts "*" (by decide), starts "/" (by decide), starts "%" (by decide), h.isDoubled]
  · simp only [powerAt?, starts "**" (by decide)]

theorem isPipe : isPipe q = isPipe p := by
  unfold Query.isPipe
  rw [h.startsWith "|" (by decide), h.isDoubled]

theorem offset : SameOffset cs p.offset q.offset := by
  obtain ⟨front, text, hp, -, hq, -⟩ := h.cut
  exact ⟨front, p.rest, text, hp, hq⟩

/-- Behind a place that begins with some ASCII text. -/
theorem offset_add {text rest : List Char} (begins : p.rest = text ++ rest) (ascii : ∀ c ∈ text, c.toNat < 128) :
    SameOffset cs (p.offset + text.length) (q.offset + text.length) := by
  obtain ⟨front, cut, hp, -, hq, -⟩ := h.cut
  refine ⟨front ++ text, rest, ?_, ?_, ?_⟩
  · rw [cut, begins, List.append_assoc]
  · rw [hp, List.length_append]
  · rw [hq, bytes_append, List.length_append, bytes_of_ascii ascii]

/-- The byte there is the one that is found. -/
theorem lookUp : placeAt? (bytes cs) q.offset = some q := by
  obtain ⟨front, text, -, -, hq, hbefore⟩ := h.cut
  obtain ⟨c, rest, hrest, ascii⟩ := h.ascii
  have behind : (bytes cs).drop q.offset = c :: bytes rest := by
    rw [text, bytes_append, hq, List.drop_left, hrest, bytes_ascii ascii]
  have before : (if q.offset = 0 then none else (bytes cs)[q.offset - 1]?) = q.before := by
    rw [hbefore, hq]
    split
    · rename_i empty
      rw [List.length_eq_zero_iff.mp empty]
      rfl
    · rename_i pos
      rw [text, bytes_append, List.getElem?_append_left (by omega), List.getLast?_eq_getElem?]
  unfold placeAt?
  rw [behind]
  show some (⟨q.offset, _, c :: bytes rest⟩ : Place) = _
  rw [before, ← bytes_ascii ascii rest, ← hrest, ← h.rest]

end SamePlace

/-- Every byte of the surface is there, and what is found is the surface of the text. -/
theorem surfaceBytes_same (cs : List Char) : ∃ found, surfaceBytes? cs = some found ∧
    Option.Rel (List.Forall₂ (SamePlace cs)) (surface? cs) found := by
  have all {places places' : List Place} (h : List.Forall₂ (SamePlace cs) places places') :
      places'.mapM (fun p => placeAt? (bytes cs) p.offset) = some places' := by
    induction h with
    | nil => rfl
    | cons h _ ih =>
      rw [List.mapM_cons, h.lookUp, ih]
      rfl
  refine ⟨surface? (bytes cs), ?_, surface_bytes cs⟩
  have same := surface_bytes cs
  unfold surfaceBytes?
  rcases hp : surface? (bytes cs) with _ | places'
  · rfl
  · rw [hp] at same
    obtain ⟨places, -, same⟩ := rel_of_some same
    exact congrArg (Option.map some) (all same)

/-! ## Literals -/

theorem SameOffset.cons {c : Char} {cs : List Char} {n k : Nat} (h : SameOffset cs n k) :
    SameOffset (c :: cs) (n + 1) (k + (bytes [c]).length) := by
  obtain ⟨front, behind, rfl, rfl, rfl⟩ := h
  refine ⟨c :: front, behind, rfl, rfl, ?_⟩
  rw [bytes_cons c front, List.length_append]
  omega

theorem literalRest_cons {quote c : Char} (plain : c ≠ '\\') (other : c ≠ quote) (x : List Char) :
    literalRest? quote (c :: x) = (literalRest? quote x).map (· + 1) := by
  rw [literalRest?, if_neg other]
  exact plain

theorem literalRest_other {quote : Char} (ascii : quote.toNat < 128) {front : List Char}
    (others : ∀ e ∈ front, 128 ≤ e.toNat) (x : List Char) :
    literalRest? quote (front ++ x) = (literalRest? quote x).map (· + front.length) := by
  induction front with
  | nil => simp
  | cons d front ih =>
    obtain ⟨large, others⟩ := List.forall_mem_cons.mp others
    have ne {c : Char} (hc : c.toNat < 128) : d ≠ c := by
      rintro rfl
      omega
    rw [List.cons_append, literalRest_cons (ne (by decide)) (ne ascii), ih others, Option.map_map]
    rfl

/-- Reading past one character more. -/
theorem rel_literal_cons {c : Char} {cs : List Char} {a b : Option Nat} (h : Option.Rel (SameOffset cs) a b) {n : Nat}
    (length : n = (bytes [c]).length) :
    Option.Rel (SameOffset (c :: cs)) (a.map (· + 1)) (b.map (· + n)) := by
  rw [length]
  exact rel_map h fun _ _ same => same.cons

/-- A literal ends at the same quote, in characters and in bytes. -/
theorem literalRest_bytes {quote : Char} (ascii : quote.toNat < 128) (cs : List Char) :
    Option.Rel (SameOffset cs) (literalRest? quote cs) (literalRest? quote (bytes cs)) := by
  have slash : ('\\').toNat < 128 := by decide
  fun_induction literalRest? quote cs with
  | case1 => exact .none
  | case2 c rest ih =>
    obtain ⟨d, front, single⟩ := List.exists_cons_of_ne_nil (bytes_single_ne_nil c)
    -- Only the first byte behind the backslash is skipped; the others of its character are no quote.
    have behind : literalRest? quote (front ++ bytes rest) = (literalRest? quote (bytes rest)).map (· + front.length) := by
      by_cases hc : c.toNat < 128
      · rw [bytes_single_ascii hc] at single
        cases single
        simp
      · apply literalRest_other ascii
        intro e he
        exact bytes_single_other (Nat.not_lt.mp hc) e (by rw [single]; exact List.mem_cons_of_mem _ he)
    have step := @rel_literal_cons '\\' _ _ _ (@rel_literal_cons c _ _ _ ih _ rfl) _ rfl
    rw [bytes_ascii slash, bytes_cons, single, List.cons_append, literalRest?, behind]
    rw [Option.map_map, Option.map_map, single, bytes_single_ascii slash] at step
    rw [Option.map_map]
    exact step
  | case3 =>
    rw [bytes_single_ascii slash]
    exact .none
  | case4 rest plain =>
    rw [bytes_ascii ascii, literalRest?, if_pos rfl]
    · have one : ∀ d ∈ [quote], d.toNat < 128 := List.forall_mem_singleton.mpr ascii
      exact .some (sameOffset_ascii one)
    · exact plain
  | case5 c rest plain other ih =>
    by_cases hc : c.toNat < 128
    · rw [bytes_ascii hc, literalRest_cons plain other]
      exact rel_literal_cons ih (by rw [bytes_single_ascii hc]; rfl)
    · rw [bytes_cons, literalRest_other ascii (bytes_single_other (Nat.not_lt.mp hc))]
      exact rel_literal_cons ih rfl

theorem literalLength_bytes (cs : List Char) :
    Option.Rel (SameOffset cs) (literalLength? cs) (literalLength? (bytes cs)) := by
  have quotes {c : Char} (h : c = '"' ∨ c = '\'') : c.toNat < 128 := by
    rcases h with rfl | rfl
    · decide
    · decide
  rcases cs with _ | ⟨c, cs⟩
  · exact .none
  · by_cases quote : c = '"' ∨ c = '\''
    · have ascii := quotes quote
      rw [bytes_ascii ascii]
      simp only [literalLength?, if_pos quote]
      exact rel_literal_cons (literalRest_bytes ascii cs) (by rw [bytes_single_ascii ascii]; rfl)
    · obtain ⟨d, rest, text, first⟩ := bytes_first c cs
      have other : ¬ (d = '"' ∨ d = '\'') := by
        rw [first.is (by decide), first.is (by decide)]
        exact quote
      rw [text]
      simp only [literalLength?, if_neg quote, if_neg other]
      exact .none

end Groq.Query
