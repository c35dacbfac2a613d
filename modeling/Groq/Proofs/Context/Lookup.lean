/-
  Groq.Proofs.Context.Lookup — what a context finds, against what it was built from.

  A context begins as a dataset, which is indexed by id, and takes settings one after another
  (`Setting`, `configure`). What each setting changes is said once (`set_dataset`, `set_index`, `set_parameter?`,
  `set_referenceTypes`); the rest is by induction on the settings.
  Proved: after any settings a document found through the index is the one a scan of the dataset finds first,
  a parameter has the value given last, and following references keeps the nesting of arrays and puts
  in the place of every other value the document it leads to, or null (`configure_finds`).
-/

import Groq.Context
import Groq.Proofs.Fields
import Mathlib.Data.List.Forall2

namespace Groq

namespace Context

/-! ## Settings -/

/-- What can be set in a context. -/
inductive Setting where
  | parameter (name : String) (value : Value)
  | parameters (entries : List (String × Value))
  | delta (before after : Value)
  | client (client : Client)
  | referenceTypes (types : List String)
  | now (now : Instant)

def set (c : Context) : Setting → Context
  | .parameter name value => c.withParameter name value
  | .parameters entries => c.withParameters entries
  | .delta before after => c.withDelta before after
  | .client client => c.withClient client
  | .referenceTypes types => c.withReferenceTypes types
  | .now now => c.withNow now

/-- The settings one after the other. -/
def configure (c : Context) (settings : List Setting) : Context := settings.foldl set c

/-- A context that begins as a dataset and takes settings. -/
def Reachable (c : Context) : Prop := ∃ dataset now settings, c = (ofDataset dataset now).configure settings

/-- The parameters that a setting gives, in order. -/
def Setting.given : Setting → List (String × Value)
  | parameter name value => [(name, value)]
  | parameters entries => entries
  | _ => []

/-- The types that a setting restricts references to. -/
def Setting.types? : Setting → Option (List String)
  | referenceTypes types => some types
  | _ => none

/-- The value given last for a parameter. -/
def lastValue? (settings : List Setting) (name : String) : Option Value :=
  (settings.flatMap Setting.given).reverse.lookup name

/-- The types that references were restricted to last. -/
def lastTypes? (settings : List Setting) : Option (List String) := settings.reverse.findSome? Setting.types?

section Settings

variable (c : Context) (setting : Setting) (settings : List Setting)

theorem set_dataset : (c.set setting).dataset = c.dataset := by
  cases setting <;> rfl

theorem set_index : (c.set setting).index = c.index := by
  cases setting <;> rfl

theorem set_parameter? (name : String) :
    (c.set setting).parameter? name = (setting.given.reverse.lookup name).or (c.parameter? name) := by
  cases setting with
  | parameter key value =>
    exact (Fields.find_insert name key value c.parameters).trans
      ((Fields.find_insert name key value c.parameters).symm.trans (Fields.find_merge name c.parameters [(key, value)]))
  | parameters entries => exact Fields.find_merge name c.parameters entries
  | _ => rfl

theorem set_referenceTypes : (c.set setting).referenceTypes = setting.types?.or c.referenceTypes := by
  cases setting <;> rfl

theorem configure_dataset : (c.configure settings).dataset = c.dataset := by
  induction settings generalizing c with
  | nil => rfl
  | cons setting rest ih => exact (ih (c.set setting)).trans (c.set_dataset setting)

theorem configure_index : (c.configure settings).index = c.index := by
  induction settings generalizing c with
  | nil => rfl
  | cons setting rest ih => exact (ih (c.set setting)).trans (c.set_index setting)

theorem configure_parameter? (name : String) :
    (c.configure settings).parameter? name = (lastValue? settings name).or (c.parameter? name) := by
  induction settings generalizing c with
  | nil => rfl
  | cons setting rest ih =>
    have last : lastValue? (setting :: rest) name = (lastValue? rest name).or (setting.given.reverse.lookup name) := by
      simp only [lastValue?, List.flatMap_cons, List.reverse_append, List.lookup_append]
    rw [last, Option.or_assoc, ← c.set_parameter?]
    exact ih (c.set setting)

theorem configure_referenceTypes :
    (c.configure settings).referenceTypes = (lastTypes? settings).or c.referenceTypes := by
  induction settings generalizing c with
  | nil => rfl
  | cons setting rest ih =>
    have last : lastTypes? (setting :: rest) = (lastTypes? rest).or setting.types? := by
      simp [lastTypes?, List.findSome?_append]
    rw [last, Option.or_assoc, ← c.set_referenceTypes]
    exact ih (c.set setting)

end Settings

/-! ## Documents -/

/-- The first document with this id, by going through the dataset. -/
def firstWithId? (dataset : List Value) (id : String) : Option Value :=
  dataset.find? fun document => document.stringField? "_id" == some id

/-- The first document of an id stays in the index. -/
theorem insertIfNew_get (index : Std.HashMap String Value) (key id : String) (document : Value) :
    (index.insertIfNew key document)[id]? = index[id]?.or (if key = id then some document else none) := by
  rw [Std.HashMap.getElem?_insertIfNew]
  by_cases same : key = id
  · subst same
    rcases known : index[key]? with _ | earlier
    · have absent : ¬ key ∈ index := fun mem => by simp [Std.HashMap.mem_iff_isSome_getElem?, known] at mem
      simp [absent]
    · have present : key ∈ index := Std.HashMap.mem_iff_isSome_getElem?.mpr (by rw [known]; rfl)
      simp [present]
  · simp [same]

/-- By induction on the dataset: what is in the index already stays. -/
theorem foldl_get (dataset : List Value) (index : Std.HashMap String Value) (id : String) :
    (dataset.foldl (fun index document =>
      match documentId? document with
      | some id => index.insertIfNew id document
      | none => index) index)[id]? = index[id]?.or (firstWithId? dataset id) := by
  induction dataset generalizing index with
  | nil => exact Option.or_none.symm
  | cons document rest ih =>
    rw [List.foldl_cons, ih]
    unfold firstWithId?
    rw [List.find?_cons]
    rcases hd : document.stringField? "_id" with _ | key
    · simp [documentId?, hd]
    · by_cases same : key = id
      · subst same
        simp only [documentId?, hd, insertIfNew_get, if_pos, beq_self_eq_true, Option.or_assoc, Option.some_or]
      · have other : (key == id) = false := beq_eq_false_iff_ne.mpr same
        simp [documentId?, hd, insertIfNew_get, same, other]

theorem index_get (dataset : List Value) (id : String) : (indexById dataset)[id]? = firstWithId? dataset id :=
  (foldl_get dataset ∅ id).trans (by simp)

theorem Reachable.document? {c : Context} (h : c.Reachable) (id : String) : c.document? id = firstWithId? c.dataset id := by
  obtain ⟨dataset, now, settings, rfl⟩ := h
  unfold Context.document?
  rw [configure_index, configure_dataset]
  exact index_get dataset id

/-! ## References -/

end Context

/-- Two values with the same nesting of arrays, whose other values are related in order. -/
inductive Value.SameNesting (R : Value → Value → Prop) : Value → Value → Prop
  | leaf {v w : Value} : v.items? = none → R v w → SameNesting R v w
  | array {items items' : List Value} : List.Forall₂ (SameNesting R) items items' →
      SameNesting R (.array items) (.array items')

namespace Context

/-- The value is a reference to the document, and references may lead to it. -/
def LeadsTo (dataset : List Value) (types : Option (List String)) (v document : Value) : Prop :=
  ∃ id, v.stringField? "_ref" = some id ∧ firstWithId? dataset id = some document ∧
    ∀ allowed, types = some allowed → ∃ type ∈ allowed, document.stringField? "_type" = some type

/-- What is found at the end of a reference: the document, or null. -/
def Followed (dataset : List Value) (types : Option (List String)) (v found : Value) : Prop :=
  LeadsTo dataset types v found ∨ (∀ document, ¬ LeadsTo dataset types v document) ∧ found = .null

section References

variable {c : Context} {v document : Value}

theorem allows_iff : c.allows document = true ↔
    ∀ allowed, c.referenceTypes = some allowed → ∃ type ∈ allowed, document.stringField? "_type" = some type := by
  unfold allows
  rcases c.referenceTypes with _ | types
  · simp
  · rcases document.stringField? "_type" with _ | type
    · simp
    · simp

/-- A reference is resolved to the document it leads to. -/
theorem Reachable.resolve_iff (h : c.Reachable) :
    v.reference?.bind c.resolve? = some document ↔ LeadsTo c.dataset c.referenceTypes v document := by
  unfold LeadsTo Value.reference? resolve?
  rw [Option.bind_map, Option.bind_eq_some_iff]
  refine exists_congr fun id => and_congr_right fun _ => ?_
  show (c.document? id).bind _ = _ ↔ _
  rw [h.document?, Option.bind_eq_some_iff]
  constructor
  · rintro ⟨found, first, kept⟩
    split at kept
    · rename_i allowed
      cases kept
      exact ⟨first, allows_iff.mp allowed⟩
    · cases kept
  · rintro ⟨first, allowed⟩
    exact ⟨document, first, if_pos (allows_iff.mpr allowed)⟩

theorem Reachable.followed (h : c.Reachable) (v : Value) :
    Followed c.dataset c.referenceTypes v ((v.reference?.bind c.resolve?).getD .null) := by
  rcases resolved : v.reference?.bind c.resolve? with _ | document
  · refine .inr ⟨fun document leads => ?_, rfl⟩
    rw [h.resolve_iff.mpr leads] at resolved
    cases resolved
  · exact .inl (h.resolve_iff.mp resolved)

mutual

/-- By recursion on the value, as references are followed. -/
theorem Reachable.dereference (h : c.Reachable) :
    ∀ v : Value, v.SameNesting (Followed c.dataset c.referenceTypes) (c.dereference v)
  | .array items => .array (h.dereferenceItems items)
  | .null => .leaf rfl (h.followed .null)
  | .bool b => .leaf rfl (h.followed (.bool b))
  | .number x => .leaf rfl (h.followed (.number x))
  | .string s => .leaf rfl (h.followed (.string s))
  | .object fields => .leaf rfl (h.followed (.object fields))
  | .dateTime t => .leaf rfl (h.followed (.dateTime t))

theorem Reachable.dereferenceItems (h : c.Reachable) : ∀ items : List Value,
    List.Forall₂ (Value.SameNesting (Followed c.dataset c.referenceTypes)) items (Context.dereferenceItems c items)
  | [] => .nil
  | item :: rest => .cons (h.dereference item) (h.dereferenceItems rest)

end

variable {c' : Context}

mutual

/-- Following references takes from a context how it resolves them, and nothing else. -/
theorem dereference_congr (same : ∀ r, c.resolve? r = c'.resolve? r) : ∀ v : Value, c.dereference v = c'.dereference v
  | .array items => congrArg Value.array (dereferenceItems_congr same items)
  | .null | .bool _ | .number _ | .string _ | .dateTime _ => rfl
  | .object fields => by
    show (((Value.object fields).reference?).bind c.resolve?).getD .null = _
    rw [funext same]
    rfl

theorem dereferenceItems_congr (same : ∀ r, c.resolve? r = c'.resolve? r) :
    ∀ items : List Value, c.dereferenceItems items = c'.dereferenceItems items
  | [] => rfl
  | item :: rest => congrArg₂ List.cons (dereference_congr same item) (dereferenceItems_congr same rest)

end

end References

/-! ## Reachable contexts -/

/-- Whatever is set, the dataset stays, its documents are found as by going through it, a parameter has the value
    given last, and references lead to the documents of the dataset that the last restriction allows. -/
theorem configure_finds (dataset : List Value) (now : Instant) (settings : List Setting) :
    ((ofDataset dataset now).configure settings).dataset = dataset ∧
    (∀ id, ((ofDataset dataset now).configure settings).document? id = firstWithId? dataset id) ∧
    (∀ name, ((ofDataset dataset now).configure settings).parameter? name = lastValue? settings name) ∧
    ∀ v : Value, v.SameNesting (Followed dataset (lastTypes? settings))
      (((ofDataset dataset now).configure settings).dereference v) := by
  have reachable : ((ofDataset dataset now).configure settings).Reachable := ⟨dataset, now, settings, rfl⟩
  have kept : ((ofDataset dataset now).configure settings).dataset = dataset := configure_dataset _ settings
  have types : ((ofDataset dataset now).configure settings).referenceTypes = lastTypes? settings :=
    (configure_referenceTypes _ settings).trans Option.or_none
  refine ⟨kept, fun id => ?document, fun name => ?parameter, fun v => ?reference⟩
  case document =>
    rw [reachable.document?, kept]
  case parameter => exact (configure_parameter? _ settings name).trans Option.or_none
  case reference =>
    have followed := reachable.dereference v
    rw [kept, types] at followed
    exact followed

end Context

end Groq
