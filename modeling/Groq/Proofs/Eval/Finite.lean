/-
  Groq.Proofs.Eval.Finite — what evaluation makes of finite numbers.

  An environment is finite where every value that an expression can see in it is. A node whose parts give
  finite values gives one itself (`node_gives`), unless it is a literal that is not finite or a sum, a mean
  or a distance: these are not held back as the operators' results are. By induction on the depth, so does
  a tree that has no such node.
  Proved: a query without them results in a finite value, whatever it is asked over (`query_finite`).
-/

import Groq.Check
import Groq.Proofs.Context.Lookup
import Groq.Proofs.Eval.Sorting
import Groq.Proofs.Query.Memory
import Groq.Proofs.Value.Finite
import Mathlib

namespace Groq

open Value

/-! ## Environments -/

/-- The numbers of a context are finite, and its time is one of the calendar. -/
structure Context.Finite (c : Context) : Prop where
  dataset : ∀ v ∈ c.dataset, v.Finite
  parameters : ∀ p ∈ c.parameters, p.2.Finite
  before : c.delta.before.Finite
  after : c.delta.after.Finite
  now : c.now.Valid

/-- Every value that can be seen from a frame is finite. -/
structure Scope.Finite (s : Scope) : Prop where
  context : s.context.Finite
  documents : ∀ id v, s.context.document? id = some v → v.Finite
  this : s.this.Finite
  outer : ∀ v ∈ s.outer, v.Finite

def Env.Finite : Env → Prop
  | .constant => True
  | .inScope s => s.Finite

section Scopes

variable {s frame : Scope} {v : Value}

theorem Scope.Finite.push (h : s.Finite) (hv : v.Finite) (pushed : s.push v = .ok frame) : frame.Finite := by
  obtain ⟨-, rfl⟩ := Scope.push_ok pushed
  exact ⟨h.context, h.documents, hv, List.forall_mem_cons.mpr ⟨h.this, h.outer⟩⟩

theorem Scope.Finite.ancestor (h : s.Finite) (levels : Nat) :
    (((s.ancestor? levels).map Scope.this).getD .null).Finite := by
  rw [Scope.ancestor_this]
  refine getD_finite fun v found => ?_
  exact List.forall_mem_cons.mpr ⟨h.this, h.outer⟩ v (List.mem_of_getElem? found)

theorem Context.Finite.parameter {c : Context} (h : c.Finite) (name : String) :
    ((c.parameter? name).getD .null).Finite := by
  refine getD_finite fun v found => ?_
  obtain ⟨key, mem⟩ := find_mem found
  exact h.parameters _ mem

mutual

/-- A reference leads to a document or to null; by recursion on the value, as references are followed. -/
theorem dereference_finite {c : Context} (documents : ∀ id v, c.document? id = some v → v.Finite) :
    ∀ v : Value, (c.dereference v).Finite
  | .array items => .array (dereferenceItems_finite documents items)
  | .null | .bool _ | .number _ | .string _ | .dateTime _ => .null
  | .object fields => by
    refine getD_finite fun v found => ?_
    obtain ⟨r, -, resolved⟩ := Option.bind_eq_some_iff.mp found
    obtain ⟨document, found, allowed⟩ := Option.bind_eq_some_iff.mp resolved
    split at allowed
    · cases allowed
      exact documents _ _ found
    · cases allowed

theorem dereferenceItems_finite {c : Context} (documents : ∀ id v, c.document? id = some v → v.Finite) :
    ∀ items : List Value, ∀ v ∈ c.dereferenceItems items, v.Finite
  | [] => nofun
  | item :: rest => List.forall_mem_cons.mpr ⟨dereference_finite documents item, dereferenceItems_finite documents rest⟩

end

end Scopes

/-! ## Runs with finite results -/

/-- Whatever the run results in has the property. -/
def Gives {α : Type} (x : Except Halt α) (P : α → Prop) : Prop := ∀ a, x = .ok a → P a

section Gives

variable {α β : Type} {P : α → Prop} {Q : β → Prop}

theorem Gives.pure {a : α} (h : P a) : Gives (Pure.pure a) P := by
  rintro b ⟨⟩
  exact h

theorem gives_any (x : Except Halt α) : Gives x fun _ => True := fun _ _ => trivial

theorem Gives.bind {x : Except Halt α} {f : α → Except Halt β} (h : Gives x P) (next : ∀ a, P a → Gives (f a) Q) :
    Gives (x >>= f) Q := by
  intro b run
  obtain ⟨a, first, run⟩ := bind_ok run
  exact next a (h a first) b run

theorem Gives.mapM [Inhabited β] {f : α → Except Halt β} {items : List α} (h : ∀ a ∈ items, Gives (f a) Q) :
    Gives (items.mapM f) fun results => ∀ b ∈ results, Q b := by
  intro results run
  obtain ⟨g, each, rfl⟩ := mapM_ok run
  exact List.forall_mem_map.mpr fun a mem => h a mem _ (each a mem)

theorem Gives.filterM {f : α → Except Halt Bool} {items : List α} (h : ∀ a ∈ items, P a) :
    Gives (items.filterM f) fun kept => ∀ a ∈ kept, P a := by
  intro kept run
  obtain ⟨-, rfl⟩ := filterM_ok run
  exact fun a mem => h a (List.mem_filter.mp mem).1

end Gives

/-! ## Nodes -/

/-- The functions whose results are not held back when they are not finite. -/
def Builtin.isUnguarded : Builtin → Bool
  | sum | mean | distance => true
  | _ => false

/-- A literal that is not finite, or a call of such a function. -/
def Expr.isUnguarded : Expr → Bool
  | literal v => !decide v.Finite
  | call library name _ => (Builtin.find? library name).any Builtin.isUnguarded
  | _ => false

def Expr.Guarded (e : Expr) : Prop := ¬ e.Contains isUnguarded

theorem Expr.Guarded.part {e part : Expr} (h : e.Guarded) (mem : part ∈ e.parts) : part.Guarded :=
  fun inside => h (.inside mem inside)

theorem Expr.Guarded.framed {e part : Expr} (h : e.Guarded) (mem : part ∈ e.framed) : part.Guarded :=
  fun inside => h (Contains.of_framed mem inside)

section Nodes

variable {eval : Env → Expr → Step} {env : Env} {args : List Expr}

theorem scope_gives (h : env.Finite) : Gives env.scope Scope.Finite := by
  cases env with
  | constant => nofun
  | inScope s =>
    rintro s' ⟨⟩
    exact h

section Calls

variable (h : ∀ arg ∈ args, Gives (eval env arg) Value.Finite)

include h

theorem unary_gives {f : Value → Value} (keeps : ∀ v, v.Finite → (f v).Finite) :
    Gives (Call.unary ⟨env, args, eval⟩ f) Value.Finite := by
  unfold Call.unary
  dsimp only
  split
  · exact (h _ List.mem_cons_self).bind fun v hv => .pure (keeps v hv)
  · exact .pure .null

theorem binary_gives {f : Value → Value → Value} (keeps : ∀ v w, v.Finite → w.Finite → (f v w).Finite) :
    Gives (Call.binary ⟨env, args, eval⟩ f) Value.Finite := by
  unfold Call.binary
  dsimp only
  split
  · refine (h _ List.mem_cons_self).bind fun v hv => ?_
    exact (h _ (List.mem_cons_of_mem _ List.mem_cons_self)).bind fun w hw => .pure (keeps v w hv hw)
  · exact .pure .null

theorem firstDefined_gives {rest : List Expr} (sub : rest ⊆ args) :
    Gives (Call.firstDefined ⟨env, args, eval⟩ rest) Value.Finite := by
  induction rest with
  | nil => exact .pure .null
  | cons e rest ih =>
    obtain ⟨mem, sub⟩ := List.cons_subset.mp sub
    refine (h e mem).bind fun v hv => ?_
    split
    · exact ih sub
    · exact .pure hv

theorem round_gives : Gives (Call.round ⟨env, args, eval⟩) Value.Finite := by
  unfold Call.round
  dsimp only
  split
  · refine (h _ List.mem_cons_self).bind fun v hv => ?_
    split
    · exact .pure (roundNumber_finite _ _)
    · exact .pure .null
  · refine (h _ List.mem_cons_self).bind fun v hv => ?_
    split
    · exact (h _ (List.mem_cons_of_mem _ List.mem_cons_self)).bind fun _ _ => .pure (roundNumber_finite _ _)
    · exact .pure .null
  · exact .pure .null

end Calls

theorem nullary_gives {f : Context → Value} (henv : env.Finite) (keeps : ∀ c : Context, c.Finite → (f c).Finite) :
    Gives (Call.nullary ⟨env, args, eval⟩ f) Value.Finite := by
  unfold Call.nullary
  dsimp only
  split
  · exact (scope_gives henv).bind fun s hs => .pure (keeps _ hs.context)
  · exact .pure .null

theorem references_gives : Gives (Call.references ⟨env, args, eval⟩) Value.Finite := by
  unfold Call.references
  split
  · exact .pure .null
  · refine (gives_any _).bind fun s _ => (gives_any _).bind fun values _ => ?_
    split
    · exact .pure (.bool _)
    · exact .pure .null

theorem operation_finite (delta : Delta) : (Call.operation delta).Finite := by
  unfold Call.operation
  split <;> constructor

theorem run_gives (henv : env.Finite) (h : ∀ arg ∈ args, Gives (eval env arg) Value.Finite) {f : Builtin}
    (guarded : f.isUnguarded = false) : Gives (Call.run ⟨env, args, eval⟩ f) Value.Finite := by
  cases f
  all_goals simp only [Call.run]
  case sum | mean | distance => cases guarded
  case after => exact nullary_gives henv fun c hc => hc.after
  case before => exact nullary_gives henv fun c hc => hc.before
  case operation => exact nullary_gives henv fun c _ => operation_finite c.delta
  case now => exact nullary_gives henv fun c _ => .string _
  case instant => exact nullary_gives henv fun c hc => .dateTime hc.now
  case datasetName => exact nullary_gives henv fun c _ => .string _
  case projectId => exact nullary_gives henv fun c _ => .string _
  case count => exact unary_gives h fun v _ => count_finite v
  case dateTime => exact unary_gives h fun v hv => toDateTime_finite hv
  case defined => exact unary_gives h fun v _ => .bool _
  case geometry => exact unary_gives h fun v hv => geometry_finite hv
  case length => exact unary_gives h fun v _ => length_finite v
  case lower => exact unary_gives h fun v _ => mapString_finite _ v
  case upper => exact unary_gives h fun v _ => mapString_finite _ v
  case portableText => exact unary_gives h fun v hv => portableText_finite hv
  case blockText => exact unary_gives h fun v _ => blockText_finite v
  case toText => exact unary_gives h fun v _ => toPlainString_finite v
  case compact => exact unary_gives h fun v hv => compact_finite hv
  case unique => exact unary_gives h fun v hv => unique_finite hv
  case maximum => exact unary_gives h fun v hv => maximum_finite hv
  case minimum => exact unary_gives h fun v hv => minimum_finite hv
  case intersects => exact binary_gives h fun v w _ _ => intersects_finite v w
  case join => exact binary_gives h fun v w _ _ => join_finite v w
  case split => exact binary_gives h fun v w _ _ => split_finite v w
  case startsWith => exact binary_gives h fun v w _ _ => startsWith_finite v w
  case latLng => exact binary_gives h fun v w hv hw => latLng_finite hv hw
  case coalesce => exact firstDefined_gives h (List.Subset.refl args)
  case round => exact round_gives h
  case references => exact references_gives

/-! ## Frames -/

section Frames

variable {s : Scope} {body : Expr}

theorem within_gives (hs : s.Finite)
    (h : ∀ frame : Scope, frame.Finite → Gives (eval (.inScope frame) body) Value.Finite)
    {v : Value} (hv : v.Finite) : Gives (Eval.within eval s body v) Value.Finite := by
  have pushed : Gives (s.push v) Scope.Finite := fun frame run => hs.push hv run
  exact pushed.bind h

theorem filterValue_gives {v : Value} (hv : v.Finite) : Gives (Eval.filterValue eval s body v) Value.Finite := by
  unfold Eval.filterValue
  split
  · exact (Gives.filterM (finite_items hv)).bind fun kept finite => .pure (.array finite)
  · exact .pure .null

theorem projectionValue_gives (hs : s.Finite)
    (h : ∀ frame : Scope, frame.Finite → Gives (eval (.inScope frame) body) Value.Finite) {v : Value} (hv : v.Finite) :
    Gives (Eval.projectionValue eval s body v) Value.Finite := by
  unfold Eval.projectionValue
  split
  · refine (Gives.mapM fun item mem => ?_).bind fun results finite => .pure (.array finite)
    exact within_gives hs h (finite_items hv item mem)
  · exact .pure .null
  · exact within_gives hs h hv

theorem filter_gives (henv : env.Finite) {base : Expr} (h : Gives (eval env base) Value.Finite) :
    Gives (Eval.filter eval env base body) Value.Finite := by
  by_cases everything : base = .everything
  · subst everything
    rw [filter_everything]
    exact (scope_gives henv).bind fun s hs => filterValue_gives (.array hs.context.dataset)
  · rw [filter_eq eval env body everything]
    exact (scope_gives henv).bind fun s _ => h.bind fun v hv => filterValue_gives hv

theorem projection_gives (henv : env.Finite) {base : Expr} (h : Gives (eval env base) Value.Finite)
    (inside : ∀ frame : Scope, frame.Finite → Gives (eval (.inScope frame) body) Value.Finite) :
    Gives (Eval.projection eval env base body) Value.Finite := by
  by_cases everything : base = .everything
  · subst everything
    rw [projection_everything]
    exact (scope_gives henv).bind fun s hs => projectionValue_gives hs inside (.array hs.context.dataset)
  · rw [projection_eq eval env body everything]
    exact (scope_gives henv).bind fun s hs => h.bind fun v hv => projectionValue_gives hs inside hv

/-- Sorting changes the places of items only. -/
theorem order_gives {v : Value} (hv : v.Finite) : Gives (Call.order ⟨env, args, eval⟩ v) Value.Finite := by
  intro w run
  cases v with
  | array items =>
    by_cases none : args = []
    · unfold Call.order at run
      dsimp only at run
      rw [if_pos none] at run
      cases run
      exact .null
    · obtain ⟨scope, -, keysOf, -, rfl⟩ := order_result (c := ⟨env, args, eval⟩) none run
      exact .array fun item mem => finite_items hv item ((sortRows_perm _ items).mem_iff.mp mem)
  | _ =>
    cases run
    exact .null

end Frames

/-! ## Literals -/

theorem elements_gives {entries : List Element} (h : ∀ e ∈ entries.map Element.value, Gives (eval env e) Value.Finite) :
    Gives (Eval.elements eval env entries) fun items => ∀ item ∈ items, item.Finite := by
  induction entries with
  | nil => exact .pure (List.forall_mem_nil _)
  | cons entry rest ih =>
    obtain ⟨first, others⟩ := List.forall_mem_cons.mp h
    cases entry with
    | item e =>
      exact first.bind fun v hv => (ih others).bind fun items finite => .pure (List.forall_mem_cons.mpr ⟨hv, finite⟩)
    | splat e =>
      refine first.bind fun v hv => (ih others).bind fun items finite => ?_
      split
      · exact .pure fun item mem => (List.mem_append.mp mem).elim (finite_items hv item) (finite item)
      · exact .pure (List.forall_mem_cons.mpr ⟨hv, finite⟩)

theorem attributes_gives {entries : List Attribute} {fields : List (String × Value)}
    (hf : ∀ field ∈ fields, field.2.Finite) (h : ∀ e ∈ entries.map Attribute.value, Gives (eval env e) Value.Finite) :
    Gives (Eval.attributes eval env fields entries) fun fields => ∀ field ∈ fields, field.2.Finite := by
  induction entries generalizing fields with
  | nil => exact .pure hf
  | cons entry rest ih =>
    obtain ⟨first, others⟩ := List.forall_mem_cons.mp h
    cases entry with
    | named name e => exact first.bind fun v hv => ih (insert_finite hv hf) others
    | splat e =>
      refine first.bind fun v hv => ih (merge_finite hf ?_) others
      cases v with
      | object fields => exact finite_fields hv
      | _ => exact List.forall_mem_nil _

/-- A node gives a finite value where its parts do. -/
theorem node_gives (henv : env.Finite) {e : Expr} (guarded : e.isUnguarded = false)
    (standing : ∀ part ∈ e.parts, Gives (eval env part) Value.Finite)
    (framed : ∀ part ∈ e.framed, ∀ frame : Scope, frame.Finite → Gives (eval (.inScope frame) part) Value.Finite) :
    Gives (Eval.node eval env e) Value.Finite := by
  have seen {f : Scope → Value} (keeps : ∀ s : Scope, s.Finite → (f s).Finite) :
      Gives (env.scope >>= fun s => pure (f s)) Value.Finite :=
    (scope_gives henv).bind fun s hs => .pure (keeps s hs)
  have applied {base : Expr} {f : Value → Value} (mem : base ∈ e.parts) (keeps : ∀ v, v.Finite → (f v).Finite) :
      Gives (eval env base >>= fun v => pure (f v)) Value.Finite :=
    (standing base mem).bind fun v hv => .pure (keeps v hv)
  have combined {left right : Expr} {f : Value → Value → Value} (hl : left ∈ e.parts) (hr : right ∈ e.parts)
      (keeps : ∀ v w, v.Finite → w.Finite → (f v w).Finite) :
      Gives (eval env left >>= fun v => eval env right >>= fun w => pure (f v w)) Value.Finite :=
    (standing left hl).bind fun v hv => (standing right hr).bind fun w hw => .pure (keeps v w hv hw)
  have two {left right : Expr} : right ∈ [left, right] := List.mem_cons_of_mem _ List.mem_cons_self
  cases e with
  | literal v => exact .pure (by simpa [Expr.isUnguarded] using guarded)
  | this => exact seen fun s hs => hs.this
  | parent levels => exact seen fun s hs => hs.ancestor levels
  | everything => exact seen fun s hs => .array hs.context.dataset
  | parameter name => exact seen fun s hs => hs.context.parameter name
  | ownField name => exact seen fun s hs => readField_finite hs.this
  | array entries => exact (elements_gives standing).bind fun items finite => .pure (.array finite)
  | object entries =>
    exact (attributes_gives (List.forall_mem_nil _) standing).bind fun fields finite => .pure (.object finite)
  | field base name => exact applied List.mem_cons_self fun v hv => readField_finite hv
  | element base index => exact applied List.mem_cons_self fun v hv => element_finite index hv
  | slice base left right inclusive => exact applied List.mem_cons_self fun v hv => slice_finite inclusive left right hv
  | filter base body => exact filter_gives henv (standing base List.mem_cons_self)
  | projection base body =>
    exact projection_gives henv (standing base List.mem_cons_self) (framed body List.mem_cons_self)
  | deref base =>
    refine (scope_gives henv).bind fun s hs => (standing base List.mem_cons_self).bind fun v _ => ?_
    exact .pure (dereference_finite hs.documents v)
  | arrayCoerce base => exact applied List.mem_cons_self fun v hv => arrayOrNull_finite hv
  | group base => exact standing base List.mem_cons_self
  | call library name args =>
    simp only [Eval.node]
    split
    · rename_i f found
      refine run_gives henv standing ?_
      simpa [Expr.isUnguarded, found] using guarded
    · exact .pure .null
  | pipeCall name base args =>
    refine (standing base List.mem_cons_self).bind fun v hv => ?_
    split
    · rename_i f _
      cases f
      exact order_gives hv
    · exact .pure .null
  | not base => exact applied List.mem_cons_self fun v _ => not_finite v
  | neg base => exact applied List.mem_cons_self fun v hv => neg_finite hv
  | pos base => exact applied List.mem_cons_self fun v hv => pos_finite hv
  | and left right => exact combined List.mem_cons_self two fun v w _ _ => and_finite v w
  | or left right => exact combined List.mem_cons_self two fun v w _ _ => or_finite v w
  | binary op left right => exact combined List.mem_cons_self two fun v w hv hw => applyBinary_finite op hv hw
  | asc | desc => exact .pure .null

end Nodes

/-! ## Trees -/

/-- By induction on the depth. -/
theorem evalAt_gives (limits : Limits) (depth : Nat) {env : Env} (henv : env.Finite) {e : Expr} (guarded : e.Guarded) :
    Gives (evalAt limits depth env e) Value.Finite := by
  induction depth generalizing env e with
  | zero => nofun
  | succ depth ih =>
    refine node_gives henv (Bool.eq_false_iff.mpr fun here => guarded (.here here)) ?_ ?_
    · exact fun part mem => ih henv (guarded.part mem)
    · exact fun part mem frame hf => @ih (.inScope frame) hf part (guarded.framed mem)

theorem root_finite {c : Context} (reachable : c.Reachable) (finite : c.Finite) (maxDepth : Nat) :
    (Scope.root c maxDepth).Finite where
  context := finite
  documents id v found := by
    have found : c.document? id = some v := found
    rw [Context.Reachable.document? reachable] at found
    exact finite.dataset v (List.mem_of_find?_eq_some found)
  this := .null
  outer := nofun

/-- A query without a literal too large for a double, a sum, a mean or a distance results in a finite value, over any
    context of finite values. -/
theorem query_finite (limits : Limits) (context : Context) (reachable : context.Reachable) (finite : context.Finite)
    (query : String) (e : Expr) (parsed : Query.parse limits query = .ok e) (guarded : e.Guarded) (v : Value)
    (found : runQuery limits context query = .ok v) : v.Finite := by
  unfold runQuery at found
  rw [parsed] at found
  have root : Env.Finite (.inScope (Scope.root context limits.scope)) := root_finite reachable finite limits.scope
  have inside := evalAt_gives limits limits.eval root guarded
  have result : (evaluate limits context e).mapError QueryError.eval = .ok v := found
  unfold evaluate at result
  cases run : evalAt limits limits.eval (.inScope (Scope.root context limits.scope)) e with
  | ok w =>
    rw [run] at result
    cases result
    exact inside v run
  | error halt =>
    rw [run] at result
    cases halt with
    | failed cause => cases result
    | needsScope =>
      cases result
      exact .null

theorem empty_finite : (Context.ofDataset [] ⟨0, 0⟩).Finite where
  dataset := List.forall_mem_nil _
  parameters := List.forall_mem_nil _
  before := .null
  after := .null
  now := by decide

set_option maxRecDepth 4000 in
/-- A product too large for a double is held back. -/
theorem query_finite_product :
    (Context.ofDataset [] ⟨0, 0⟩).Reachable ∧ (Context.ofDataset [] ⟨0, 0⟩).Finite ∧
      Query.parse {} "1e308*10" = .ok (.binary .multiply (.literal (.number 1e308)) (.literal (.number 10))) ∧
      Expr.Guarded (.binary .multiply (.literal (.number 1e308)) (.literal (.number 10))) ∧
      runQuery {} (.ofDataset [] ⟨0, 0⟩) "1e308*10" = .ok .null ∧ Value.null.Finite := by
  have reachable : (Context.ofDataset [] ⟨0, 0⟩).Reachable := ⟨[], ⟨0, 0⟩, [], rfl⟩
  have cut : Query.lexemes "1e308*10".toList = .ok [.number "1e308".toList, .mark '*', .number "10".toList] := by cbv
  have parses : Query.parse {} "1e308*10" =
      .ok (.binary .multiply (.literal (.number 1e308)) (.literal (.number 10))) :=
    Query.parse_of_lexemes cut rfl
  have guarded : Expr.Guarded (.binary .multiply (.literal (.number 1e308)) (.literal (.number 10))) := by
    unfold Expr.Guarded
    decide +kernel
  have tooGreat : ¬ Float.isFinite (1e308 * 10) = true := by decide +kernel
  have held : numeric (· * ·) (.number 1e308) (.number 10) = .null := by
    unfold numeric ofFinite
    dsimp only
    rw [if_neg tooGreat]
  have found : runQuery {} (.ofDataset [] ⟨0, 0⟩) "1e308*10" = .ok .null := by
    unfold runQuery
    rw [parses]
    exact congrArg Except.ok held
  exact ⟨reachable, empty_finite, parses, guarded, found,
    query_finite {} _ reachable empty_finite _ _ parses guarded _ found⟩

set_option maxRecDepth 4000 in
/-- A sum too large for a double is not. -/
theorem sum_not_finite : ¬ ∀ (limits : Limits) (context : Context) (query : String) (v : Value), context.Reachable →
    context.Finite → runQuery limits context query = .ok v → v.Finite := by
  intro always
  have cut : Query.lexemes "math::sum([1e308,1e308])".toList =
      .ok [.word "math".toList, .mark ':', .mark ':', .word "sum".toList, .mark '(', .mark '[', .number "1e308".toList,
        .mark ',', .number "1e308".toList, .mark ']', .mark ')'] := by cbv
  have parses : Query.parse {} "math::sum([1e308,1e308])" = .ok (.call "math" "sum"
      [.array [.item (.literal (.number 1e308)), .item (.literal (.number 1e308))]]) := Query.parse_of_lexemes cut rfl
  have found : runQuery {} (.ofDataset [] ⟨0, 0⟩) "math::sum([1e308,1e308])" =
      .ok (.number (total [1e308, 1e308])) := by
    unfold runQuery
    rw [parses]
    rfl
  have finite := always {} _ _ _ ⟨[], ⟨0, 0⟩, [], rfl⟩ empty_finite found
  have infinite : (total [1e308, 1e308]).isFinite = false := by decide +kernel
  exact absurd (finite_number finite) (by rw [infinite]; decide)

end Groq
