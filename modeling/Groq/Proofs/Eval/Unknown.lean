/-
  Groq.Proofs.Eval.Unknown — calls that no function answers.

  The names of the functions stand twice: in the vocabulary, by which unknown calls are reported, and in the
  tables by which a call finds its function. They are the same names (`isDefined_eq`), so the report has the
  calls that find none, in the order in which a tree is visited (`unknownCalls_eq`). Such a call is null and
  evaluates none of its arguments. A null in its place takes as much depth, and is neither the dataset nor a
  sort mark, as the call was neither; but behind a pipe the base is evaluated, and so those calls stay.
  Proved: the report lists every call without a function once, and with nulls for the unknown calls that are
  not behind a pipe a query evaluates to the same value or error (`unknownCalls_answered`).
-/

import Groq.Expr.Unknown
import Groq.Proofs.Eval.Rewriting
import Groq.Proofs.Fields

namespace Groq

/-! ## Names -/

namespace Builtin

/-- What calls find is in the vocabulary. -/
theorem isDefined_of_find {library name : String} {f : Builtin} (h : find? library name = some f) :
    isDefined library name = true := by
  unfold find? at h
  split at h
  · unfold findGlobal? at h
    split at h
    all_goals cases h
    all_goals rfl
  · unfold findArray? at h
    split at h
    all_goals cases h
    all_goals rfl
  · unfold findString? at h
    split at h
    all_goals cases h
    all_goals rfl
  · unfold findMath? at h
    split at h
    all_goals cases h
    all_goals rfl
  · split at h
    · rename_i now
      rw [now]
      rfl
    · cases h
  · unfold findGeo? at h
    split at h
    all_goals cases h
    all_goals rfl
  · split at h
    · rename_i text
      rw [text]
      rfl
    · cases h
  · unfold findProject? at h
    split at h
    all_goals cases h
    all_goals rfl
  · cases h

/-- Each name of the vocabulary is found. -/
theorem vocabulary_found : ∀ entry ∈ vocabulary, ∀ name ∈ entry.2, (find? entry.1 name).isSome = true := by decide

theorem find_of_isDefined {library name : String} (h : isDefined library name = true) :
    (find? library name).isSome = true := by
  obtain ⟨names, listed, mem⟩ := (Option.any_eq_true _ _).mp h
  exact vocabulary_found _ (Fields.mem_of_lookup listed) name (List.contains_iff_mem.mp mem)

theorem isDefined_eq (library name : String) : isDefined library name = (find? library name).isSome := by
  rw [Bool.eq_iff_iff]
  constructor
  · exact find_of_isDefined
  · intro h
    obtain ⟨f, found⟩ := Option.isSome_iff_exists.mp h
    exact isDefined_of_find found

theorem isPipeDefined_eq (name : String) : isPipeDefined name = (PipeBuiltin.find? name).isSome := by
  unfold isPipeDefined PipeBuiltin.find?
  by_cases h : name = "order" <;> simp [pipeVocabulary, h]

end Builtin

namespace Expr

/-! ## The report -/

/-- The nodes of a tree in the order of a visit: each before its parts, and these from left to right. -/
def nodes : Expr → List Expr := fold fun e outer inner => e :: (outer ++ inner).flatten

theorem nodes_eq (e : Expr) : e.nodes = e :: e.parts.flatMap nodes := by
  rw [parts_eq, List.flatMap_append, List.flatMap_def, List.flatMap_def, ← List.flatten_append]
  exact fold_eq _ e

/-- The callee of a call that finds no function. -/
def unanswered? : Expr → Option Callee
  | call library name _ => if (Builtin.find? library name).isNone then some (.function library name) else none
  | pipeCall name _ _ => if (PipeBuiltin.find? name).isNone then some (.pipe name) else none
  | _ => none

theorem ifUnknown_eq {α : Type} {callee : Callee} {found? : Option α} (known : callee.isKnown = found?.isSome) :
    callee.ifUnknown = (if found?.isNone then some callee else none).toList := by
  rw [Callee.ifUnknown, known]
  cases found? <;> rfl

theorem unknownInArgs_eq (args : List Expr) : unknownInArgs args = args.flatMap unknownCalls := by
  induction args with
  | nil => rfl
  | cons e rest ih => rw [unknownInArgs, ih, List.flatMap_cons]

theorem unknownInElements_eq (entries : List Element) :
    unknownInElements entries = (entries.map Element.value).flatMap unknownCalls := by
  induction entries with
  | nil => rfl
  | cons entry rest ih =>
    rw [unknownInElements, ih, List.map_cons, List.flatMap_cons]
    cases entry <;> rfl

theorem unknownInAttributes_eq (entries : List Attribute) :
    unknownInAttributes entries = (entries.map Attribute.value).flatMap unknownCalls := by
  induction entries with
  | nil => rfl
  | cons entry rest ih =>
    rw [unknownInAttributes, ih, List.map_cons, List.flatMap_cons]
    cases entry <;> rfl

/-- A node is reported before its parts. -/
theorem unknownCalls_node (e : Expr) : e.unknownCalls = e.unanswered?.toList ++ e.parts.flatMap unknownCalls := by
  cases e with
  | call library name args =>
    have known : (Callee.function library name).isKnown = (Builtin.find? library name).isSome :=
      Builtin.isDefined_eq library name
    rw [unknownCalls, ifUnknown_eq known, unknownInArgs_eq]
    rfl
  | pipeCall name base args =>
    have known : (Callee.pipe name).isKnown = (PipeBuiltin.find? name).isSome := Builtin.isPipeDefined_eq name
    rw [unknownCalls, ifUnknown_eq known, unknownInArgs_eq, List.append_assoc]
    rfl
  | array entries => exact unknownInElements_eq entries
  | object entries => exact unknownInAttributes_eq entries
  | _ => simp [unknownCalls, unanswered?, parts]

/-- By induction on the tree. -/
theorem unknownCalls_eq (e : Expr) : e.unknownCalls = e.nodes.filterMap unanswered? := by
  induction e using parts_induction with
  | step e ih =>
    have inside : e.parts.flatMap unknownCalls = (e.parts.flatMap nodes).filterMap unanswered? := by
      rw [List.filterMap_flatMap, List.flatMap_def, List.flatMap_def]
      exact congrArg List.flatten (List.map_congr_left ih)
    rw [unknownCalls_node, nodes_eq, inside, List.filterMap_cons]
    cases e.unanswered? <;> rfl

/-! ## Nulls for unknown calls -/

/-- A call that finds no function and is not behind a pipe. -/
def isUnknownCall : Expr → Bool
  | call library name _ => (Builtin.find? library name).isNone
  | _ => false

/-- Null for an unknown call. -/
def answered (e : Expr) : Expr := if e.isUnknownCall then literal .null else e

/-- The tree with a null for each unknown call. -/
def withNulls : Expr → Expr := rewrite answered

theorem isUnknownCall_mapParts (f : Expr → Expr) (e : Expr) : (e.mapParts f).isUnknownCall = e.isUnknownCall := by
  cases e <;> rfl

theorem withNulls_unknown {e : Expr} (unknown : e.isUnknownCall = true) : e.withNulls = literal .null := by
  unfold withNulls
  rw [rewrite_eq, answered, isUnknownCall_mapParts, if_pos unknown]

theorem withNulls_known {e : Expr} (known : ¬ e.isUnknownCall = true) : e.withNulls = e.mapParts withNulls := by
  unfold withNulls
  rw [rewrite_eq, answered, isUnknownCall_mapParts, if_neg known]

/-- A null stands neither for the dataset nor for a sort mark. -/
theorem keepsForms_withNulls (e : Expr) : e.KeepsForms withNulls := by
  have dataset (base : Expr) : base = everything ↔ base.withNulls = everything := by
    by_cases unknown : base.isUnknownCall = true
    · rw [withNulls_unknown unknown]
      constructor
      · rintro rfl
        cases unknown
      · nofun
    · rw [withNulls_known unknown]
      cases base <;> simp [mapParts]
  have key (arg : Expr) : Call.sortKey arg.withNulls = ((Call.sortKey arg).1.withNulls, (Call.sortKey arg).2) := by
    by_cases unknown : arg.isUnknownCall = true
    · cases arg with
      | call library name args =>
        show Call.sortKey (call library name args).withNulls = ((call library name args).withNulls, .ascending)
        rw [withNulls_unknown unknown]
        rfl
      | _ => cases unknown
    · cases arg with
      | call library name args =>
        show Call.sortKey (call library name args).withNulls = ((call library name args).withNulls, .ascending)
        rw [withNulls_known unknown]
        rfl
      | _ => rfl
  cases e with
  | filter base body | projection base body => exact dataset base
  | pipeCall name base args => exact fun arg _ => key arg
  | _ => trivial

theorem parts_mapParts (f : Expr → Expr) (e : Expr) : (e.mapParts f).parts = e.parts.map f := by
  cases e with
  | array entries =>
    simp only [mapParts, parts, List.map_map]
    exact List.map_congr_left fun entry _ => by cases entry <;> rfl
  | object entries =>
    simp only [mapParts, parts, List.map_map]
    exact List.map_congr_left fun entry _ => by cases entry <;> rfl
  | _ => rfl

theorem unanswered_mapParts (f : Expr → Expr) (e : Expr) : (e.mapParts f).unanswered? = e.unanswered? := by
  cases e <;> rfl

theorem isUnknownCall_of_unanswered {e : Expr} {library name : String}
    (h : e.unanswered? = some (.function library name)) : e.isUnknownCall = true := by
  cases e with
  | call library' name' args =>
    simp only [unanswered?, Option.ite_none_right_eq_some] at h
    exact h.1
  | pipeCall name' base args => simp [unanswered?] at h
  | _ => cases h

/-- No unknown call is left but behind pipes. -/
theorem withNulls_answered (library name : String) (e : Expr) : .function library name ∉ e.withNulls.unknownCalls := by
  induction e using parts_induction with
  | step e ih =>
    by_cases unknown : e.isUnknownCall = true
    · rw [withNulls_unknown unknown]
      exact List.not_mem_nil
    · rw [withNulls_known unknown, unknownCalls_node, unanswered_mapParts, parts_mapParts]
      intro reported
      rcases List.mem_append.mp reported with here | inside
      · exact unknown (isUnknownCall_of_unanswered (Option.mem_toList.mp here))
      · rw [List.flatMap_map] at inside
        obtain ⟨part, mem, below⟩ := List.mem_flatMap.mp inside
        exact ih part mem below

end Expr

/-! ## Evaluation -/

theorem node_unknown {eval : Env → Expr → Step} {env : Env} {e : Expr} (unknown : e.isUnknownCall = true) :
    Eval.node eval env e = .ok .null := by
  cases e with
  | call library name args =>
    have none : Builtin.find? library name = none := Option.isNone_iff_eq_none.mp unknown
    simp only [Eval.node, none]
    rfl
  | _ => cases unknown

/-- By induction on the depth. -/
theorem evalAt_withNulls (limits : Limits) (depth : Nat) (env : Env) (e : Expr) :
    evalAt limits depth env e.withNulls = evalAt limits depth env e := by
  induction depth generalizing env e with
  | zero => rfl
  | succ depth ih =>
    show Eval.node (evalAt limits depth) env e.withNulls = Eval.node (evalAt limits depth) env e
    by_cases unknown : e.isUnknownCall = true
    · rw [Expr.withNulls_unknown unknown, node_unknown unknown]
      rfl
    · have parts : evalOther Expr.withNulls (evalAt limits depth) = evalAt limits depth :=
        funext fun env => funext fun e => ih env e
      rw [Expr.withNulls_known unknown, node_mapParts _ _ _ e.keepsForms_withNulls, parts]

/-- The report lists the callees of the calls that find no function, in the order of a visit. Nulls for all such calls
    that are not behind a pipe change nothing, whatever the limits and the context. -/
theorem unknownCalls_answered (e : Expr) :
    e.unknownCalls = e.nodes.filterMap Expr.unanswered? ∧
    (∀ library name, .function library name ∉ e.withNulls.unknownCalls) ∧
    ∀ limits context, evaluate limits context e.withNulls = evaluate limits context e := by
  refine ⟨e.unknownCalls_eq, fun library name => e.withNulls_answered library name, fun limits context => ?_⟩
  unfold evaluate
  rw [evalAt_withNulls]

end Groq
