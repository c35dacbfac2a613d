/-
  Groq.Proofs.Value.Written — written values are read back.

  Whichever layout a value is written in, its text spells the same tokens: a line break is space to the
  reader (`spells_write`). The tokens denote the tree of the value, as deep as the value is nested
  (`denotes_tokens`).
  Proved: the text of a simple value is a document, the value without the signs of its zeros, where its
  nesting is within the bound (`document_write`).
-/

import Groq.Dataset
import Groq.Proofs.Json.Reading
import Groq.Proofs.Json.Tokens
import Groq.Proofs.Value.Simple

namespace Groq.Value

open Json

mutual

/-- The tokens that a value is written in. -/
def tokens : Value → List Token
  | null => [.scalar .null]
  | bool b => [.scalar (.bool b)]
  | number x => [.scalar (numberToJson x)]
  | string s => [.string s]
  | dateTime t => [.string t.toText]
  | array items => .beginArray :: commas (itemsTokens items) ++ [.endArray]
  | object fields => .beginObject :: commas (fieldsTokens fields) ++ [.endObject]
termination_by structural v => v

def itemsTokens : List Value → List (List Token)
  | [] => []
  | item :: rest => tokens item :: itemsTokens rest
termination_by structural items => items

def fieldsTokens : List (String × Value) → List (List Token)
  | [] => []
  | (key, value) :: rest => (.string key :: .colon :: tokens value) :: fieldsTokens rest
termination_by structural fields => fields

end

/-! ## Text -/

section Text

variable {layout : Layout} {pieces : List (List Char)} {spelled : List (List Token)}

theorem lineBreak_spaces (layout : Layout) : ∀ c ∈ layout.lineBreak, isSpace c = true := by
  cases layout with
  | none => nofun
  | some steps =>
    refine List.forall_mem_cons.mpr ⟨rfl, fun c mem => ?_⟩
    rw [List.eq_of_mem_replicate mem]
    rfl

theorem lineBreak_ends {rest : List Char} (ends : Ends rest) (layout : Layout) : Ends (layout.lineBreak ++ rest) := by
  cases layout with
  | none => exact ends
  | some steps => exact ⟨rfl, rfl⟩

theorem cuts_colon (layout : Layout) (rest : List Char) : Cuts (layout.colon ++ rest) rest [.colon] := by
  cases layout with
  | none => exact cuts_mark rfl rest
  | some steps => exact (cuts_mark rfl _).trans (cuts_spaces (List.forall_mem_singleton.mpr rfl) rest)

theorem spells_lines (layout : Layout) (h : List.Forall₂ Spells pieces spelled) :
    Spells (commaSeparated (pieces.map (layout.lineBreak ++ ·))) (commas spelled) := by
  induction h with
  | nil => exact fun rest _ => .refl rest
  | @cons piece tokens pieces spelled first others ih =>
    intro rest ends
    have line : ∀ rest, Ends rest → Cuts (layout.lineBreak ++ piece ++ rest) rest tokens := by
      intro rest ends
      rw [List.append_assoc]
      exact (cuts_spaces (lineBreak_spaces layout) _).trans (first rest ends)
    cases others with
    | nil => exact line rest ends
    | cons next others =>
      rw [commas_cons]
      change Cuts (layout.lineBreak ++ piece ++ ',' :: _ ++ rest) _ _
      rw [List.append_assoc]
      exact (line _ (ends_mark (t := .comma) rfl _)).trans ((cuts_mark rfl _).trans (ih rest ends))

theorem spells_bracketed {opening closing : Char} {t t' : Token} (begins : t.mark? = some opening)
    (closes : t'.mark? = some closing) (h : List.Forall₂ Spells pieces spelled) :
    Spells (bracketed layout opening closing pieces) (t :: commas spelled ++ [t']) := by
  intro rest ends
  unfold bracketed
  split
  · rename_i none
    subst none
    cases h
    exact (cuts_mark begins _).trans (cuts_mark closes rest)
  · have inside := spells_lines layout.deeper h (layout.lineBreak ++ closing :: rest)
      (lineBreak_ends (ends_mark closes rest) layout)
    have last := (cuts_spaces (lineBreak_spaces layout) (closing :: rest)).trans (cuts_mark closes rest)
    dsimp only
    rw [List.append_assoc, List.append_assoc]
    exact (cuts_mark begins _).trans (inside.trans last)

end Text

mutual

/-- The layout makes no difference. -/
theorem spells_write : ∀ (v : Value) (layout : Layout), v.Simple → Spells (v.write layout) v.tokens
  | null, _, _ => spells_null
  | bool b, _, _ => spells_bool b
  | string s, _, _ => fun rest _ => cuts_quoted s rest
  | number x, _, simple => by
    obtain ⟨n, whole⟩ := simple_number simple
    obtain ⟨p, found, -⟩ := Double.integer_parts whole
    change Spells (numberText x) [.scalar (numberToJson x)]
    rw [numberText, numberToJson, Double.isFinite_of_parts found, whole]
    exact spells_integer (Double.integer_bound whole)
  | array items, layout, simple =>
    spells_bracketed rfl rfl (spells_writeItems items layout.deeper (simple_items simple))
  | object fields, layout, simple =>
    spells_bracketed rfl rfl (spells_writeFields fields layout.deeper (simple_fields simple).1)

theorem spells_writeItems : ∀ (items : List Value) (layout : Layout), (∀ item ∈ items, item.Simple) →
    List.Forall₂ Spells (writeItems layout items) (itemsTokens items)
  | [], _, _ => .nil
  | item :: rest, layout, simple => by
    obtain ⟨first, others⟩ := List.forall_mem_cons.mp simple
    exact .cons (spells_write item layout first) (spells_writeItems rest layout others)

theorem spells_writeFields : ∀ (fields : List (String × Value)) (layout : Layout),
    (∀ field ∈ fields, field.2.Simple) → List.Forall₂ Spells (writeFields layout fields) (fieldsTokens fields)
  | [], _, _ => .nil
  | (key, value) :: rest, layout, simple => by
    obtain ⟨first, others⟩ := List.forall_mem_cons.mp simple
    refine .cons ?_ (spells_writeFields rest layout others)
    intro rest ends
    have member := (cuts_quoted key _).trans ((cuts_colon layout _).trans (spells_write value layout first rest ends))
    rwa [← List.append_assoc, ← List.append_assoc] at member

end

/-! ## Trees -/

theorem keys_fieldsToJson (fields : List (String × Value)) :
    (fieldsToJson fields).map Prod.fst = fields.map Prod.fst := by
  induction fields with
  | nil => rfl
  | cons field rest ih => exact congrArg (field.1 :: ·) ih

section Trees

variable {limit : Nat}

mutual

/-- By recursion on the value; a container leaves what it holds one level less. -/
theorem denotes_tokens : ∀ v : Value, v.Simple → Denotes limit v.nesting v.tokens v.toJson
  | null, _ => denotes_token (fun _ => rfl) nofun
  | bool _, _ => denotes_token (fun _ => rfl) nofun
  | number _, _ => denotes_token (fun _ => rfl) nofun
  | string _, _ => denotes_token (fun _ => rfl) nofun
  | array items, simple => denotes_array (denotes_itemsTokens items _ (simple_items simple) le_rfl)
  | object fields, simple => by
    obtain ⟨values, keys⟩ := simple_fields simple
    rw [← keys_fieldsToJson] at keys
    exact denotes_object (denotes_fieldsTokens fields _ values le_rfl) keys

theorem denotes_itemsTokens : ∀ (items : List Value) (depth : Nat), (∀ item ∈ items, item.Simple) →
    itemsNesting items ≤ depth → List.Forall₂ (Denotes limit depth) (itemsTokens items) (itemsToJson items)
  | [], _, _, _ => .nil
  | item :: rest, depth, simple, nested => by
    obtain ⟨first, others⟩ := List.forall_mem_cons.mp simple
    obtain ⟨here, there⟩ := Nat.max_le.mp nested
    exact .cons ((denotes_tokens item first).mono here) (denotes_itemsTokens rest depth others there)

theorem denotes_fieldsTokens : ∀ (fields : List (String × Value)) (depth : Nat), (∀ field ∈ fields, field.2.Simple) →
    fieldsNesting fields ≤ depth → List.Forall₂ (DenotesMember limit depth) (fieldsTokens fields) (fieldsToJson fields)
  | [], _, _, _ => .nil
  | (_, value) :: rest, depth, simple, nested => by
    obtain ⟨first, others⟩ := List.forall_mem_cons.mp simple
    obtain ⟨here, there⟩ := Nat.max_le.mp nested
    exact .cons ⟨_, rfl, (denotes_tokens value first).mono here⟩ (denotes_fieldsTokens rest depth others there)

end

end Trees

/-! ## Documents -/

section Documents

variable {v : Value} {layout : Layout}

theorem leads_tokens (simple : v.Simple) (nested : v.nesting ≤ Dataset.maxNesting) :
    Leads Dataset.maxNesting (.value []) v.tokens (.done v.toJson) :=
  (denotes_tokens v simple).leads [] (by rwa [List.length_nil, Nat.zero_add])

/-- A written value is read back, its zeros without signs. -/
theorem document_write (simple : v.Simple) (nested : v.nesting ≤ Dataset.maxNesting) (layout : Layout) :
    Dataset.document? (v.write layout) = some v.unsigned := by
  have cut := spells_write v layout simple [] ⟨rfl, rfl⟩
  rw [List.append_nil] at cut
  have tree : ofChars? Dataset.maxNesting (v.write layout) = some v.toJson := by
    have leads := leads_tokens simple nested
    unfold Leads at leads
    unfold ofChars?
    rw [tokens_of_cuts cut, Option.bind_eq_bind, Option.bind_some, leads]
    rfl
  unfold Dataset.document?
  rw [tree, Option.map_some, ofJson_toJson v simple]

/-- Where a document begins with a written value, only spaces follow it. -/
theorem document_prefix {rest : List Char} {w : Value} (simple : v.Simple) (nested : v.nesting ≤ Dataset.maxNesting)
    (ends : Ends rest) (found : Dataset.document? (v.write layout ++ rest) = some w) :
    w = v.unsigned ∧ ∀ c ∈ rest, isSpace c = true := by
  obtain ⟨j, tree, rfl⟩ := Option.map_eq_some_iff.mp found
  obtain ⟨all, tokens, read⟩ := Option.bind_eq_some_iff.mp tree
  obtain ⟨r, run, result⟩ := Option.bind_eq_some_iff.mp read
  obtain ⟨more, rfl, spaces⟩ := cuts_prefix (spells_write v layout simple rest ends) tokens
  split at result
  · cases result
    obtain ⟨none, rfl⟩ := done_of_leads (leads_tokens simple nested) run
    exact ⟨ofJson_toJson v simple, spaces none⟩
  · cases result

end Documents

end Groq.Value
