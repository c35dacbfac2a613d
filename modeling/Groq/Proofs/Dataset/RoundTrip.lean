/-
  Groq.Proofs.Dataset.RoundTrip — datasets that are written are read back.

  The format of a dataset is guessed: an array by its bracket, one document if all of the text is one, and
  lines otherwise. A written array begins with the bracket. Written objects on lines begin with a brace, and
  the text is one document only where no second document follows the first (`lines_begin`). A written value
  has no line break of its own, as strings escape theirs (`write_one_line`), so each line is a document.
  Proved: simple documents come back from an array in either layout and from lines, whatever blank lines
  stand among them and whichever line ends they have (`read_written`).
-/

import Groq.Proofs.Value.Written
import Mathlib.Data.List.TakeWhile

namespace Groq.Dataset

open Value

/-! ## One line -/

/-- There is no line break in the text. -/
def OneLine (text : List Char) : Prop := '\n' ∉ text

instance : DecidablePred OneLine := fun text => inferInstanceAs (Decidable ('\n' ∉ text))

section OneLine

variable {c : Char} {front behind : List Char}

theorem OneLine.append (h : OneLine front) (h' : OneLine behind) : OneLine (front ++ behind) :=
  fun mem => (List.mem_append.mp mem).elim h h'

theorem OneLine.cons (h : c ≠ '\n') (h' : OneLine behind) : OneLine (c :: behind) :=
  fun mem => (List.mem_cons.mp mem).elim (h ·.symm) h'

theorem OneLine.of_cons (h : OneLine (c :: behind)) : c ≠ '\n' ∧ OneLine behind :=
  ⟨fun same => h (same ▸ List.mem_cons_self), fun mem => h (List.mem_cons_of_mem _ mem)⟩

theorem escaped_one_line (c : Char) : OneLine (Json.escaped c) := by
  have hex : ∀ n < 16, Json.hexDigit n ≠ '\n' := by decide
  unfold Json.escaped
  split
  case h_8 _ _ newline _ _ _ _ =>
    split
    · rename_i control
      have small : c.toNat < 32 := control
      have digits : OneLine [Json.hexDigit (c.toNat / 16), Json.hexDigit (c.toNat % 16)] :=
        .cons (hex _ (by omega)) (.cons (hex _ (Nat.mod_lt _ (by decide))) nofun)
      exact OneLine.append (by decide : OneLine ['\\', 'u', '0', '0']) digits
    · exact .cons newline nofun
  all_goals decide

theorem quoted_one_line (s : String) : OneLine (Json.quoted s) := by
  have body : OneLine (s.toList.flatMap Json.escaped) := by
    intro mem
    obtain ⟨c, -, mem⟩ := List.mem_flatMap.mp mem
    exact escaped_one_line c mem
  exact OneLine.append (.cons (by decide) body) (by decide)

theorem integerText_one_line (n : Int) : OneLine (Json.integerText n) := by
  have digits (n : Nat) : OneLine (Nat.toDigits 10 n) := by
    intro mem
    cases Nat.isDigit_of_mem_toDigits (by decide) le_rfl mem
  cases n with
  | ofNat n =>
    rw [Json.integerText_ofNat]
    exact digits n
  | negSucc n =>
    rw [Json.integerText_negSucc]
    exact .cons (by decide) (digits _)

theorem commaSeparated_one_line {pieces : List (List Char)} (h : ∀ piece ∈ pieces, OneLine piece) :
    OneLine (Json.commaSeparated pieces) := by
  induction pieces with
  | nil => nofun
  | cons piece pieces ih =>
    obtain ⟨first, others⟩ := List.forall_mem_cons.mp h
    cases pieces with
    | nil => exact first
    | cons next pieces => exact first.append (.cons (by decide) (ih others))

theorem bracketed_compact (opening closing : Char) (pieces : List (List Char)) :
    bracketed Layout.compact opening closing pieces = opening :: (Json.commaSeparated pieces ++ [closing]) := by
  unfold bracketed
  split
  · rename_i none
    subst none
    rfl
  · have lines : pieces.map (Layout.compact.deeper.lineBreak ++ ·) = pieces := List.map_id pieces
    dsimp only
    rw [lines, List.append_assoc]
    rfl

theorem bracketed_one_line {opening closing : Char} {pieces : List (List Char)} (begins : opening ≠ '\n')
    (closes : closing ≠ '\n') (h : ∀ piece ∈ pieces, OneLine piece) :
    OneLine (bracketed Layout.compact opening closing pieces) := by
  rw [bracketed_compact]
  exact .cons begins ((commaSeparated_one_line h).append (.cons closes nofun))

mutual

theorem write_one_line : ∀ v : Value, v.Simple → OneLine (v.write Layout.compact)
  | .null, _ => by decide
  | .bool b, _ => by cases b <;> decide
  | .string s, _ => quoted_one_line s
  | .number x, simple => by
    obtain ⟨n, whole⟩ := simple_number simple
    obtain ⟨p, found, -⟩ := Double.integer_parts whole
    change OneLine (numberText x)
    rw [numberText, Double.isFinite_of_parts found, whole]
    exact integerText_one_line n
  | .array items, simple =>
    bracketed_one_line (by decide) (by decide) (writeItems_one_line items (simple_items simple))
  | .object fields, simple =>
    bracketed_one_line (by decide) (by decide) (writeFields_one_line fields (simple_fields simple).1)

theorem writeItems_one_line : ∀ items : List Value, (∀ item ∈ items, item.Simple) →
    ∀ piece ∈ writeItems Layout.compact items, OneLine piece
  | [], _ => nofun
  | item :: rest, simple => by
    obtain ⟨first, others⟩ := List.forall_mem_cons.mp simple
    exact List.forall_mem_cons.mpr ⟨write_one_line item first, writeItems_one_line rest others⟩

theorem writeFields_one_line : ∀ fields : List (String × Value), (∀ field ∈ fields, field.2.Simple) →
    ∀ piece ∈ writeFields Layout.compact fields, OneLine piece
  | [], _ => nofun
  | (key, value) :: rest, simple => by
    obtain ⟨first, others⟩ := List.forall_mem_cons.mp simple
    have member : OneLine (Json.quoted key ++ [':'] ++ value.write Layout.compact) :=
      ((quoted_one_line key).append (by decide)).append (write_one_line value first)
    exact List.forall_mem_cons.mpr ⟨member, writeFields_one_line rest others⟩

end

end OneLine

/-! ## Lines -/

/-- White space on one line. -/
def IsBlankLine (line : List Char) : Prop := Text.isBlankText line = true ∧ OneLine line

instance : DecidablePred IsBlankLine := fun _ => inferInstanceAs (Decidable (_ ∧ _))

inductive LineEnd : List Char → Prop
  | lf : LineEnd ['\n']
  | crlf : LineEnd ['\r', '\n']

/-- The documents on one line each, with blank lines before, between and behind them. The last line
    needs no end. -/
inductive Lines : List Value → List Char → Prop
  | blank {line : List Char} : IsBlankLine line → Lines [] line
  | document (d : Value) : Lines [d] (d.write Layout.compact)
  | skip {docs : List Value} {line ending rest : List Char} : IsBlankLine line → LineEnd ending → Lines docs rest →
    Lines docs (line ++ (ending ++ rest))
  | next {docs : List Value} {ending rest : List Char} (d : Value) : LineEnd ending → Lines docs rest →
    Lines (d :: docs) (d.write Layout.compact ++ (ending ++ rest))

/-- An object that is read back from its line. -/
structure IsRecord (d : Value) : Prop where
  simple : d.Simple
  nested : d.nesting ≤ maxNesting
  object : ∃ fields, d = .object fields

section Lines

variable {docs : List Value} {d : Value} {text rest line ending : List Char}

theorem LineEnd.blank (h : LineEnd ending) : Text.isBlankText ending = true := by
  cases h <;> rfl

theorem LineEnd.ends (h : LineEnd ending) (rest : List Char) : Json.Ends (ending ++ rest) := by
  cases h <;> exact ⟨rfl, rfl⟩

theorem linesFrom_line (done : List Char) (h : OneLine line) (rest : List Char) :
    linesFrom done (line ++ rest) = linesFrom (line.reverse ++ done) rest := by
  induction line generalizing done with
  | nil => rfl
  | cons c line ih =>
    obtain ⟨different, others⟩ := h.of_cons
    rw [List.cons_append, linesFrom, if_neg different, ih (c :: done) others, List.reverse_cons,
      List.append_assoc]
    rfl

/-- A carriage return of its own at the end of a line goes with the line feed. -/
theorem endLine_reverse (line : List Char) :
    endLine line.reverse <+: line ∧ (line.getLast? ≠ some '\r' → endLine line.reverse = line) := by
  unfold endLine
  split
  · rename_i rest ends
    have split : line = rest.reverse ++ ['\r'] := by
      rw [← List.reverse_reverse line, ends, List.reverse_cons]
    refine ⟨⟨['\r'], split.symm⟩, fun last => absurd ?_ last⟩
    rw [split, List.getLast?_append]
    rfl
  · rw [List.reverse_reverse]
    exact ⟨List.prefix_rfl, fun _ => rfl⟩

theorem lines_ending (h : OneLine line) (ends : LineEnd ending) (rest : List Char) :
    ∃ line', lines (line ++ (ending ++ rest)) = line' :: lines rest ∧ line' <+: line ∧
      (line.getLast? ≠ some '\r' → line' = line) := by
  unfold lines
  rw [linesFrom_line [] h, List.append_nil]
  cases ends with
  | lf => exact ⟨endLine line.reverse, rfl, endLine_reverse line⟩
  | crlf => exact ⟨line, congrArg (· :: _) (List.reverse_reverse line), List.prefix_rfl, fun _ => rfl⟩

theorem lines_last (h : OneLine line) (some : line ≠ []) : lines line = [line] := by
  have last := linesFrom_line [] h []
  rw [List.append_nil, List.append_nil, linesFrom, if_neg (List.reverse_eq_nil_iff.not.mpr some),
    List.reverse_reverse] at last
  exact last

theorem readLines_blank (number : Nat) (h : Text.isBlankText line = true) (rest : List (List Char)) :
    readLines number (line :: rest) = readLines (number + 1) rest := if_pos h

/-- A record stands between braces. -/
theorem IsRecord.braces (record : IsRecord d) : ∃ body, d.write Layout.compact = '{' :: (body ++ ['}']) := by
  obtain ⟨fields, rfl⟩ := record.object
  exact ⟨_, bracketed_compact '{' '}' _⟩

theorem readLines_record (record : IsRecord d) (number : Nat) (rest : List (List Char)) :
    readLines number (d.write Layout.compact :: rest) = (readLines (number + 1) rest).map (d.unsigned :: ·) := by
  have visible : Text.isBlankText (d.write Layout.compact) = false := by
    obtain ⟨body, written⟩ := record.braces
    rw [written]
    rfl
  rw [readLines, visible, document_write record.simple record.nested]
  rfl

/-- Each record is read from its own line; by induction on the lines. -/
theorem readLines_lines (h : Lines docs text) (records : ∀ d ∈ docs, IsRecord d) (number : Nat) :
    readLines number (lines text) = .ok (docs.map unsigned) := by
  induction h generalizing number with
  | @blank line blank =>
    obtain ⟨white, whole⟩ := blank
    by_cases none : line = []
    · subst none
      rfl
    · rw [lines_last whole none, readLines_blank _ white]
      rfl
  | document d =>
    have record := records d List.mem_cons_self
    obtain ⟨body, written⟩ := record.braces
    have some : d.write Layout.compact ≠ [] := by
      rw [written]
      nofun
    rw [lines_last (write_one_line d record.simple) some, readLines_record record]
    rfl
  | @skip docs line ending rest blank ends lines ih =>
    obtain ⟨white, whole⟩ := blank
    obtain ⟨line', split, front, -⟩ := lines_ending whole ends rest
    have white' : Text.isBlankText line' = true :=
      List.all_eq_true.mpr fun c mem => List.all_eq_true.mp white c (front.subset mem)
    rw [split, readLines_blank _ white']
    exact ih records (number + 1)
  | @next docs ending rest d ends lines ih =>
    obtain ⟨record, others⟩ := List.forall_mem_cons.mp records
    obtain ⟨line', split, -, same⟩ := lines_ending (write_one_line d record.simple) ends rest
    obtain ⟨body, written⟩ := record.braces
    have brace : (d.write Layout.compact).getLast? ≠ some '\r' := by
      rw [written, ← List.cons_append, List.getLast?_append]
      nofun
    rw [split, same brace, readLines_record record, ih others (number + 1)]
    rfl

/-- A record that is left stands in the text with its brace. -/
theorem brace_mem (h : Lines docs text) (records : ∀ d ∈ docs, IsRecord d) (some : docs ≠ []) : '{' ∈ text := by
  have brace {d : Value} (record : IsRecord d) : '{' ∈ d.write Layout.compact := by
    obtain ⟨body, written⟩ := record.braces
    rw [written]
    exact List.mem_cons_self
  induction h with
  | blank => exact absurd rfl some
  | document d => exact brace (records d List.mem_cons_self)
  | skip _ _ _ ih => exact List.mem_append_right _ (List.mem_append_right _ (ih records some))
  | next d => exact List.mem_append_left _ (brace (records d List.mem_cons_self))

/-- Behind its white space, the text begins with the first record; where only spaces follow, it is the only one. -/
theorem lines_begin (h : Lines docs text) (records : ∀ d ∈ docs, IsRecord d) :
    docs = [] ∧ text.dropWhile Text.isBlank = [] ∨
      ∃ d others rest, docs = d :: others ∧ text.dropWhile Text.isBlank = d.write Layout.compact ++ rest ∧
        Json.Ends rest ∧ ((∀ c ∈ rest, Json.isSpace c = true) → others = []) := by
  have visible {d : Value} (record : IsRecord d) (rest : List Char) :
      (d.write Layout.compact ++ rest).dropWhile Text.isBlank = d.write Layout.compact ++ rest := by
    obtain ⟨body, written⟩ := record.braces
    rw [written]
    rfl
  induction h with
  | blank blank => exact .inl ⟨rfl, List.dropWhile_eq_nil_iff.mpr (List.all_eq_true.mp blank.1)⟩
  | document d =>
    have first := visible (records d List.mem_cons_self) []
    rw [List.append_nil] at first
    exact .inr ⟨d, [], [], rfl, by rw [first, List.append_nil], ⟨rfl, rfl⟩, fun _ => rfl⟩
  | skip blank ends _ ih =>
    rw [List.dropWhile_append_of_pos (List.all_eq_true.mp blank.1),
      List.dropWhile_append_of_pos (List.all_eq_true.mp ends.blank)]
    exact ih records
  | @next docs ending rest d ends lines ih =>
    obtain ⟨record, others⟩ := List.forall_mem_cons.mp records
    refine .inr ⟨d, docs, ending ++ rest, rfl, visible record _, ends.ends rest, fun spaces => ?_⟩
    by_contra some
    cases spaces '{' (List.mem_append_right _ (brace_mem lines others some))

end Lines

/-! ## Datasets -/

section Datasets

variable {docs : List Value} {text : List Char}

theorem readChars_array (tail : List Char) :
    readChars ('[' :: tail) =
      match document? ('[' :: tail) with
      | some (.array documents) => .ok documents
      | _ => .error .badJson := rfl

theorem readChars_record {d : Value} (record : IsRecord d) {rest : List Char}
    (begins : text.dropWhile Text.isBlank = d.write Layout.compact ++ rest) :
    readChars text =
      match document? (d.write Layout.compact ++ rest) with
      | some document => .ok [document]
      | none => readLines 1 (lines text) := by
  obtain ⟨body, written⟩ := record.braces
  unfold readChars
  rw [begins, written]
  rfl

theorem read_array (simple : ∀ d ∈ docs, d.Simple) (nested : ∀ d ∈ docs, d.nesting < maxNesting) (layout : Layout) :
    readChars ((Value.array docs).write layout) = .ok (docs.map unsigned) := by
  have nestedArray : (Value.array docs).nesting ≤ maxNesting := by
    have items : itemsNesting docs ≤ 126 := itemsNesting_le.mpr fun d mem => Nat.le_of_lt_succ (nested d mem)
    exact Nat.succ_le_succ items
  have document := document_write (.array simple) nestedArray layout
  obtain ⟨tail, written⟩ : ∃ tail, (Value.array docs).write layout = '[' :: tail := by
    change ∃ tail, bracketed layout '[' ']' _ = _
    unfold bracketed
    split
    · exact ⟨_, rfl⟩
    · exact ⟨_, rfl⟩
  rw [written] at document ⊢
  rw [readChars_array, document]
  exact congrArg Except.ok (unsignedItems_eq docs)

/-- The text is one document only where there is one record; otherwise it is read line by line. -/
theorem read_lines (h : Lines docs text) (records : ∀ d ∈ docs, IsRecord d) :
    readChars text = .ok (docs.map unsigned) := by
  obtain ⟨rfl, none⟩ | ⟨d, others, rest, rfl, begins, ends, only⟩ := lines_begin h records
  · unfold readChars
    rw [none]
    rfl
  · have record := records d List.mem_cons_self
    rw [readChars_record record begins]
    split
    · rename_i document found
      obtain ⟨rfl, spaces⟩ := document_prefix record.simple record.nested ends found
      rw [only spaces]
      rfl
    · exact readLines_lines h records 1

end Datasets

end Groq.Dataset

namespace Groq

open Value Dataset

/-- Simple documents are read back from an array in either layout, and from lines if they are objects. An integer
    has no negative zero: zero is read back for it, and that is the same number. -/
theorem read_written {docs : List Value} (simple : ∀ d ∈ docs, d.Simple) (nested : ∀ d ∈ docs, d.nesting ≤ 126) :
    Dataset.read (compactText (.array docs)) = .ok (docs.map unsigned) ∧
      Dataset.read (indentedText (.array docs)) = .ok (docs.map unsigned) ∧
      ((∀ d ∈ docs, ∃ fields, d = .object fields) →
        ∀ text : String, Lines docs text.toList → Dataset.read text = .ok (docs.map unsigned)) ∧
      sameItems docs (docs.map unsigned) = true := by
  have shallow : ∀ d ∈ docs, d.nesting < maxNesting := fun d mem => Nat.lt_succ_of_le (nested d mem)
  have array (layout : Layout) :
      Dataset.read (String.ofList ((Value.array docs).write layout)) = .ok (docs.map unsigned) := by
    unfold Dataset.read
    rw [String.toList_ofList]
    exact read_array simple shallow layout
  refine ⟨array Layout.compact, array Layout.indented, fun objects text written => ?_, ?_⟩
  · exact read_lines written fun d mem => ⟨simple d mem, (shallow d mem).le, objects d mem⟩
  · rw [← unsignedItems_eq]
    exact sameItems_unsigned docs simple

/-- Two objects on lines, the first ending in a carriage return, with blank lines before and between them. -/
theorem read_written_lines :
    let docs := [Value.object [("a", .array [.number 7]), ("b\n", .null)], .object []]
    let text := "\n\x7b\"a\":[7],\"b\\n\":null\x7d\r\n \t\n\x7b\x7d"
    (∀ d ∈ docs, d.Simple) ∧ (∀ d ∈ docs, d.nesting ≤ 126) ∧ (∀ d ∈ docs, ∃ fields, d = .object fields) ∧
      Lines docs text.toList ∧ Dataset.read text = .ok (docs.map unsigned) := by
  intro docs text
  have first : (Value.object [("a", .array [.number 7]), ("b\n", .null)]).Simple := by
    have seven : Double.integer? 7 = some 7 := by decide +kernel
    have array : (Value.array [.number 7]).Simple := .array (List.forall_mem_singleton.mpr (.number seven))
    exact .object (List.forall_mem_cons.mpr ⟨array, List.forall_mem_singleton.mpr .null⟩) (by decide)
  have simple : ∀ d ∈ docs, d.Simple :=
    List.forall_mem_cons.mpr ⟨first, List.forall_mem_singleton.mpr (.object nofun .nil)⟩
  have nested : ∀ d ∈ docs, d.nesting ≤ 126 :=
    List.forall_mem_cons.mpr ⟨by decide, List.forall_mem_singleton.mpr (by decide)⟩
  have objects : ∀ d ∈ docs, ∃ fields, d = .object fields :=
    List.forall_mem_cons.mpr ⟨⟨_, rfl⟩, List.forall_mem_singleton.mpr ⟨_, rfl⟩⟩
  have written : text.toList = [] ++ (['\n'] ++ ((Value.object [("a", .array [.number 7]), ("b\n", .null)]).write
      Layout.compact ++ (['\r', '\n'] ++ ([' ', '\t'] ++ (['\n'] ++ (Value.object []).write Layout.compact))))) := by
    decide +kernel
  have lines : Lines docs text.toList := by
    rw [written]
    exact .skip (by decide) .lf (.next _ .crlf (.skip (by decide) .lf (.document _)))
  exact ⟨simple, nested, objects, lines, (read_written simple nested).2.2.1 objects text lines⟩

end Groq
