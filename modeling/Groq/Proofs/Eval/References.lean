/-
  Groq.Proofs.Eval.References — looking for references, against following them.

  `references` searches the current value, in arrays and under the fields of objects, references among them, for one
  of the ids it is given (`refersTo_iff`). Following a single value leads to the document that it refers to, and a
  document is told from all other values by its id, so only a reference to that id leads there (`dereference_iff`).
  Proved: where references are not restricted, `references` answers true for the id of a document just where
  some value in the current one leads there, and for several ids just where it does for one (`references_dereference`).
-/

import Groq.Eval
import Groq.Proofs.Context.Lookup
import Groq.Proofs.Value.Equality

namespace Groq

/-! ## Values in values -/

namespace Value

/-- The one value stands in the other, at any depth, or is the other itself. -/
inductive Within : Value → Value → Prop
  | self {v : Value} : Within v v
  | part {v part inner : Value} : part ∈ v.parts → Within inner part → Within inner v

mutual

/-- What holds of a value where it holds of its parts holds of all values. -/
theorem parts_induction {motive : Value → Prop} (step : ∀ v : Value, (∀ part ∈ v.parts, motive part) → motive v) :
    ∀ v, motive v
  | array items => step _ (items_induction step items)
  | object fields => step _ (fields_induction step fields)
  | null | bool _ | number _ | string _ | dateTime _ => step _ (List.forall_mem_nil _)

theorem items_induction {motive : Value → Prop} (step : ∀ v : Value, (∀ part ∈ v.parts, motive part) → motive v) :
    ∀ items : List Value, ∀ item ∈ items, motive item
  | [] => List.forall_mem_nil _
  | item :: rest => List.forall_mem_cons.mpr ⟨parts_induction step item, items_induction step rest⟩

theorem fields_induction {motive : Value → Prop} (step : ∀ v : Value, (∀ part ∈ v.parts, motive part) → motive v) :
    ∀ fields : List (String × Value), ∀ value ∈ fields.map Prod.snd, motive value
  | [] => List.forall_mem_nil _
  | (_, value) :: rest => List.forall_mem_cons.mpr ⟨parts_induction step value, fields_induction step rest⟩

end

/-- A string is one id, an array of strings is all of them. -/
inductive Names : Value → List String → Prop
  | one (id : String) : Names (string id) [id]
  | several (ids : List String) : Names (array (ids.map string)) ids

end Value

open Value

/-! ## The search -/

section Search

variable {ids : List String} {v : Value}

theorem anyRefersTo_eq (ids : List String) (items : List Value) :
    Call.anyRefersTo ids items = items.any (Call.refersTo ids) := by
  induction items with
  | nil => rfl
  | cons item rest ih => rw [Call.anyRefersTo, ih, List.any_cons]

theorem anyFieldRefersTo_eq (ids : List String) (fields : List (String × Value)) :
    Call.anyFieldRefersTo ids fields = (fields.map Prod.snd).any (Call.refersTo ids) := by
  induction fields with
  | nil => rfl
  | cons field rest ih => rw [Call.anyFieldRefersTo, ih, List.map_cons, List.any_cons]

/-- The search looks at the value itself, then in its parts. -/
theorem refersTo_eq (ids : List String) (v : Value) :
    Call.refersTo ids v = ((v.stringField? "_ref").any ids.contains || v.parts.any (Call.refersTo ids)) := by
  cases v with
  | array items => exact anyRefersTo_eq ids items
  | object fields =>
    rw [Call.refersTo, anyFieldRefersTo_eq, reference?, Option.any_map]
    rfl
  | _ => rfl

/-- One way by induction on the value, the other on the way in. -/
theorem refersTo_iff (ids : List String) (v : Value) :
    Call.refersTo ids v = true ↔ ∃ inner : Value, inner.Within v ∧ ∃ id ∈ ids, inner.stringField? "_ref" = some id := by
  constructor
  · induction v using parts_induction with
    | step v ih =>
      rw [refersTo_eq, Bool.or_eq_true, List.any_eq_true, Option.any_eq_true]
      rintro (⟨id, here, mem⟩ | ⟨part, mem, inside⟩)
      · exact ⟨v, .self, id, List.contains_iff_mem.mp mem, here⟩
      · obtain ⟨inner, within_, refers⟩ := ih part mem inside
        exact ⟨inner, .part mem within_, refers⟩
  · rintro ⟨inner, within_, id, mem, refers⟩
    induction within_ with
    | self =>
      rw [refersTo_eq, refers, Option.any_some, List.contains_iff_mem.mpr mem, Bool.true_or]
    | part part _ ih =>
      rw [refersTo_eq, Bool.or_eq_true, List.any_eq_true]
      exact .inr ⟨_, part, ih refers⟩

/-- A search for several ids finds one of them. -/
theorem refersTo_flatten (idss : List (List String)) (v : Value) :
    Call.refersTo idss.flatten v = true ↔ ∃ ids ∈ idss, ∃ id ∈ ids, Call.refersTo [id] v = true := by
  simp only [refersTo_iff, List.mem_flatten, List.mem_singleton]
  constructor
  · rintro ⟨inner, inside, id, ⟨ids, among, mem⟩, refers⟩
    exact ⟨ids, among, id, mem, inner, inside, id, rfl, refers⟩
  · rintro ⟨ids, among, id, mem, inner, inside, other, same, refers⟩
    exact ⟨inner, inside, other, ⟨ids, among, same ▸ mem⟩, refers⟩

end Search

/-! ## The target -/

section Target

variable {c : Context} {id : String} {document : Value}

theorem document_id {dataset : List Value} (found : Context.firstWithId? dataset id = some document) :
    document.stringField? "_id" = some id := by
  have first := List.find?_some (p := fun document : Value => document.stringField? "_id" == some id) found
  exact beq_iff_eq.mp first

theorem leadsTo_iff (found : Context.firstWithId? c.dataset id = some document) (v : Value) :
    Context.LeadsTo c.dataset none v document ↔ v.stringField? "_ref" = some id := by
  constructor
  · rintro ⟨other, refers, found', -⟩
    have same : other = id := Option.some.inj ((document_id found').symm.trans (document_id found))
    rw [refers, same]
  · exact fun refers => ⟨id, refers, found, nofun⟩

/-- Where references are not restricted, a value leads to a document where it is a reference to its id. -/
theorem dereference_iff (reachable : c.Reachable) (unrestricted : c.referenceTypes = none)
    (found : Context.firstWithId? c.dataset id = some document) (v : Value) :
    c.dereference v = document ↔ v.stringField? "_ref" = some id := by
  have named := document_id found
  have notNull : document ≠ .null := by
    rintro rfl
    cases named
  have followed : (v.reference?.bind c.resolve?).getD .null = document ↔ v.stringField? "_ref" = some id := by
    rw [← leadsTo_iff found, ← unrestricted, ← reachable.resolve_iff]
    cases v.reference?.bind c.resolve? with
    | none => exact ⟨fun null => absurd null.symm notNull, nofun⟩
    | some found => exact Option.some_inj.symm
  cases v with
  | array items =>
    refine ⟨?_, nofun⟩
    rintro rfl
    cases named
  | _ => exact followed

end Target

/-! ## Evaluation -/

/-- Runs over a list come to what each of them comes to. -/
theorem mapM_of_forall₂ {m : Type → Type} [Monad m] [LawfulMonad m] {α β : Type} {f : α → m β} {items : List α}
    {results : List β} (h : List.Forall₂ (fun a b => f a = pure b) items results) : items.mapM f = pure results := by
  induction h with
  | nil => exact List.mapM_nil
  | cons first _ ih => rw [List.mapM_cons, first, ih, pure_bind, pure_bind]

theorem idSet_of_names {v : Value} {ids : List String} (h : v.Names ids) : Call.idSet? v = some ids := by
  cases h with
  | one id => rfl
  | several ids =>
    show (ids.map string).mapM string? = some ids
    rw [List.mapM_map]
    exact List.mapM_pure.trans (congrArg some (List.map_id ids))

section Evaluation

variable {limits : Limits} {depth : Nat} {s : Scope} {args : List Expr} {values : List Value} {idss : List (List String)}

theorem references_value (nonempty : args ≠ [])
    (found : List.Forall₂ (fun arg v => evalAt limits depth (.inScope s) arg = .ok v) args values)
    (names : List.Forall₂ Names values idss) :
    evalAt limits (depth + 1) (.inScope s) (.call "global" "references" args) =
      .ok (.bool (Call.refersTo idss.flatten s.this)) := by
  have sets : values.mapM Call.idSet? = some idss := mapM_of_forall₂ (names.imp fun _ _ => idSet_of_names)
  have evaluated : args.mapM (evalAt limits depth (.inScope s)) = .ok values := mapM_of_forall₂ found
  show Call.references ⟨.inScope s, args, evalAt limits depth⟩ = _
  unfold Call.references
  rw [if_neg nonempty]
  show (args.mapM (evalAt limits depth (.inScope s)) >>= fun values => pure _) = _
  rw [evaluated]
  show Except.ok _ = _
  rw [sets]

/-- For one id. -/
theorem references_one {arg : Expr} {id : String} (found : evalAt limits depth (.inScope s) arg = .ok (.string id)) :
    evalAt limits (depth + 1) (.inScope s) (.call "global" "references" [arg]) = .ok (.bool (Call.refersTo [id] s.this)) := by
  have names : List.Forall₂ Names [.string id] [[id]] := .cons (.one id) .nil
  exact references_value (List.cons_ne_nil _ _) (.cons found .nil) names

end Evaluation

/-- Where references are not restricted, `references` for the id of a document is true if some value in the current
    one, at any depth or itself, is followed to that document, and false if none is. For strings and arrays of strings
    it is true if it is for one of the strings, else false. -/
theorem references_dereference (limits : Limits) (depth : Nat) (s : Scope) (reachable : s.context.Reachable)
    (unrestricted : s.context.referenceTypes = none) :
    (∀ arg id document, evalAt limits depth (.inScope s) arg = .ok (.string id) →
      Context.firstWithId? s.context.dataset id = some document →
      ∃ answer, evalAt limits (depth + 1) (.inScope s) (.call "global" "references" [arg]) = .ok (.bool answer) ∧
        (answer = true ↔ ∃ inner : Value, inner.Within s.this ∧
          evalAt limits (depth + 1) (.inScope s) (.deref (.literal inner)) = .ok document)) ∧
    ∀ args values idss, args ≠ [] →
      List.Forall₂ (fun arg v => evalAt limits depth (.inScope s) arg = .ok v) args values →
      List.Forall₂ Names values idss →
      ∃ answer, evalAt limits (depth + 1) (.inScope s) (.call "global" "references" args) = .ok (.bool answer) ∧
        (answer = true ↔ ∃ ids ∈ idss, ∃ id ∈ ids,
          evalAt limits (depth + 1) (.inScope s) (.call "global" "references" [.literal (.string id)]) =
            .ok (.bool true)) := by
  refine ⟨?document, ?several⟩
  case document =>
    intro arg id document evaluated found
    refine ⟨_, references_one evaluated, ?_⟩
    cases depth with
    | zero => cases evaluated
    | succ depth =>
      rw [refersTo_iff]
      refine exists_congr fun inner => and_congr_right fun _ => ?_
      have followed : evalAt limits (depth + 2) (.inScope s) (.deref (.literal inner)) =
          .ok (s.context.dereference inner) := rfl
      rw [followed, Except.ok.injEq, dereference_iff reachable unrestricted found]
      simp
  case several =>
    intro args values idss nonempty evaluated names
    refine ⟨_, references_value nonempty evaluated names, ?_⟩
    cases depth with
    | zero =>
      cases evaluated with
      | nil => exact absurd rfl nonempty
      | cons first _ => cases first
    | succ depth =>
      have single (id : String) : evalAt limits (depth + 2) (.inScope s)
          (.call "global" "references" [.literal (.string id)]) = .ok (.bool (Call.refersTo [id] s.this)) :=
        references_one rfl
      simp only [single, Except.ok.injEq, bool.injEq]
      exact refersTo_flatten idss s.this

/-- A document, and a reference to another id under which a list has a reference to the document. -/
def Scope.overAuthor : Scope :=
  ⟨.ofDataset [.object [("_id", .string "ada")]] ⟨0, 0⟩, 1,
    .object [("_ref", .string "book"), ("by", .array [.null, .object [("_ref", .string "ada")]])], [.null]⟩

/-- The reference inside the other one is found, and among several ids the one that is there. -/
theorem references_dereference_nested :
    Scope.overAuthor.context.Reachable ∧ Scope.overAuthor.context.referenceTypes = none ∧
      evalAt {} 1 (.inScope .overAuthor) (.literal (.string "ada")) = .ok (.string "ada") ∧
      Context.firstWithId? Scope.overAuthor.context.dataset "ada" = some (.object [("_id", .string "ada")]) ∧
      evalAt {} 2 (.inScope .overAuthor) (.call "global" "references" [.literal (.string "ada")]) = .ok (.bool true) ∧
      (∃ inner : Value, inner.Within Scope.overAuthor.this ∧
        evalAt {} 2 (.inScope .overAuthor) (.deref (.literal inner)) = .ok (.object [("_id", .string "ada")])) ∧
      evalAt {} 2 (.inScope .overAuthor) (.call "global" "references"
        [.literal (.string "bea"), .literal (.array [.string "cy", .string "ada"])]) = .ok (.bool true) := by
  have reachable : Scope.overAuthor.context.Reachable := ⟨_, _, [], rfl⟩
  have literal : evalAt {} 1 (.inScope .overAuthor) (.literal (.string "ada")) = .ok (.string "ada") := rfl
  have found : Context.firstWithId? Scope.overAuthor.context.dataset "ada" = some (.object [("_id", .string "ada")]) := by
    rfl
  have answer : evalAt {} 2 (.inScope .overAuthor) (.call "global" "references" [.literal (.string "ada")]) =
      .ok (.bool true) := by rfl
  obtain ⟨document, several⟩ := references_dereference {} 1 .overAuthor reachable rfl
  refine ⟨reachable, rfl, literal, found, answer, ?_, ?_⟩
  · obtain ⟨b, value, leads⟩ := document _ _ _ literal found
    rw [answer] at value
    cases value
    exact leads.mp rfl
  · obtain ⟨b, value, one⟩ := several [.literal (.string "bea"), .literal (.array [.string "cy", .string "ada"])] _
      [["bea"], ["cy", "ada"]] (List.cons_ne_nil _ _) (.cons rfl (.cons rfl .nil))
      (.cons (.one "bea") (.cons (.several ["cy", "ada"]) .nil))
    rw [value, one.mpr ⟨["cy", "ada"], by simp, "ada", by simp, answer⟩]

end Groq
