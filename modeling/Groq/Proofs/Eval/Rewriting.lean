/-
  Groq.Proofs.Eval.Rewriting — trees rewritten from their leaves, and their evaluation.

  `mapParts f` puts `f part` in the place of every part of a node, and `rewrite f` applies `f` to every node of a
  tree, the innermost first. Evaluation leaves the parts to the function it is given, so a node over other
  parts evaluates as the node itself does where that function evaluates the other parts
  (`node_mapParts`). Two places look at the form of a part: a filter or projection at whether its base is the
  dataset, sorting at the mark around a key (`KeepsForms`).
-/

import Groq.Proofs.Eval.Runs

namespace Groq

def Element.map (f : Expr → Expr) : Element → Element
  | item e => item (f e)
  | splat e => splat (f e)

def Attribute.map (f : Expr → Expr) : Attribute → Attribute
  | named name e => named name (f e)
  | splat e => splat (f e)

namespace Expr

/-! ## Rewriting -/

/-- The node with other parts. -/
def mapParts (f : Expr → Expr) : Expr → Expr
  | array entries => array (entries.map (·.map f))
  | object entries => object (entries.map (·.map f))
  | field base name => field (f base) name
  | element base index => element (f base) index
  | slice base left right inclusive => slice (f base) left right inclusive
  | filter base body => filter (f base) (f body)
  | projection base body => projection (f base) (f body)
  | deref base => deref (f base)
  | arrayCoerce base => arrayCoerce (f base)
  | group base => group (f base)
  | call library name args => call library name (args.map f)
  | pipeCall name base args => pipeCall name (f base) (args.map f)
  | and left right => and (f left) (f right)
  | or left right => or (f left) (f right)
  | not base => not (f base)
  | neg base => neg (f base)
  | pos base => pos (f base)
  | binary op left right => binary op (f left) (f right)
  | asc base => asc (f base)
  | desc base => desc (f base)
  | e => e

section Rewrite

variable (f : Expr → Expr)

mutual

/-- The tree with every node replaced, the innermost first. -/
def rewrite : Expr → Expr
  | array entries => f (array (rewriteElements entries))
  | object entries => f (object (rewriteAttributes entries))
  | field base name => f (field (rewrite base) name)
  | element base index => f (element (rewrite base) index)
  | slice base left right inclusive => f (slice (rewrite base) left right inclusive)
  | filter base body => f (filter (rewrite base) (rewrite body))
  | projection base body => f (projection (rewrite base) (rewrite body))
  | deref base => f (deref (rewrite base))
  | arrayCoerce base => f (arrayCoerce (rewrite base))
  | group base => f (group (rewrite base))
  | call library name args => f (call library name (rewriteAll args))
  | pipeCall name base args => f (pipeCall name (rewrite base) (rewriteAll args))
  | and left right => f (and (rewrite left) (rewrite right))
  | or left right => f (or (rewrite left) (rewrite right))
  | not base => f (not (rewrite base))
  | neg base => f (neg (rewrite base))
  | pos base => f (pos (rewrite base))
  | binary op left right => f (binary op (rewrite left) (rewrite right))
  | asc base => f (asc (rewrite base))
  | desc base => f (desc (rewrite base))
  | literal v => f (literal v)
  | this => f this
  | parent levels => f (parent levels)
  | everything => f everything
  | parameter name => f (parameter name)
  | ownField name => f (ownField name)
termination_by structural e => e

def rewriteAll : List Expr → List Expr
  | [] => []
  | e :: rest => rewrite e :: rewriteAll rest
termination_by structural es => es

def rewriteElement : Element → Element
  | .item e => .item (rewrite e)
  | .splat e => .splat (rewrite e)
termination_by structural entry => entry

def rewriteElements : List Element → List Element
  | [] => []
  | entry :: rest => rewriteElement entry :: rewriteElements rest
termination_by structural entries => entries

def rewriteAttribute : Attribute → Attribute
  | .named name e => .named name (rewrite e)
  | .splat e => .splat (rewrite e)
termination_by structural entry => entry

def rewriteAttributes : List Attribute → List Attribute
  | [] => []
  | entry :: rest => rewriteAttribute entry :: rewriteAttributes rest
termination_by structural entries => entries

end

theorem rewriteAll_eq (es : List Expr) : rewriteAll f es = es.map (rewrite f) := by
  induction es with
  | nil => rfl
  | cons e rest ih => rw [rewriteAll, ih, List.map_cons]

theorem rewriteElements_eq (entries : List Element) : rewriteElements f entries = entries.map (·.map (rewrite f)) := by
  induction entries with
  | nil => rfl
  | cons entry rest ih =>
    rw [rewriteElements, ih, List.map_cons]
    cases entry <;> rfl

theorem rewriteAttributes_eq (entries : List Attribute) :
    rewriteAttributes f entries = entries.map (·.map (rewrite f)) := by
  induction entries with
  | nil => rfl
  | cons entry rest ih =>
    rw [rewriteAttributes, ih, List.map_cons]
    cases entry <;> rfl

/-- A node is replaced after its parts. -/
theorem rewrite_eq (e : Expr) : rewrite f e = f (e.mapParts (rewrite f)) := by
  cases e <;> simp [rewrite, mapParts, rewriteAll_eq, rewriteElements_eq, rewriteAttributes_eq]

end Rewrite

/-- Where the form of a part counts, it is kept. -/
def KeepsForms (f : Expr → Expr) : Expr → Prop
  | filter base _ | projection base _ => base = everything ↔ f base = everything
  | pipeCall _ _ args => ∀ arg ∈ args, Call.sortKey (f arg) = (f (Call.sortKey arg).1, (Call.sortKey arg).2)
  | _ => True

end Expr

/-! ## Evaluation -/

section Evaluation

variable (f : Expr → Expr) (eval : Env → Expr → Step) (env : Env)

/-- Evaluation of the other parts. -/
def evalOther : Env → Expr → Step := fun env part => eval env (f part)

theorem elements_map (entries : List Element) :
    Eval.elements eval env (entries.map (·.map f)) = Eval.elements (evalOther f eval) env entries := by
  induction entries with
  | nil => rfl
  | cons entry rest ih =>
    rw [List.map_cons]
    cases entry with
    | item e =>
      rw [Element.map, Eval.elements, Eval.elements, ih]
      rfl
    | splat e =>
      rw [Element.map, Eval.elements, Eval.elements, ih]
      rfl

theorem attributes_map (entries : List Attribute) (fields : List (String × Value)) :
    Eval.attributes eval env fields (entries.map (·.map f)) = Eval.attributes (evalOther f eval) env fields entries := by
  induction entries generalizing fields with
  | nil => rfl
  | cons entry rest ih =>
    rw [List.map_cons]
    cases entry with
    | named name e =>
      rw [Attribute.map, Eval.attributes, Eval.attributes]
      exact congrArg (eval env (f e) >>= ·) (funext fun v => ih _)
    | splat e =>
      rw [Attribute.map, Eval.attributes, Eval.attributes]
      exact congrArg (eval env (f e) >>= ·) (funext fun v => ih _)

/-! ### Calls -/

section Calls

variable (args : List Expr)

theorem nullary_map (g : Context → Value) :
    Call.nullary ⟨env, args.map f, eval⟩ g = Call.nullary ⟨env, args, evalOther f eval⟩ g := by
  cases args <;> rfl

theorem unary_map (g : Value → Value) :
    Call.unary ⟨env, args.map f, eval⟩ g = Call.unary ⟨env, args, evalOther f eval⟩ g := by
  match args with
  | [] | [_] | _ :: _ :: _ => rfl

theorem binary_map (g : Value → Value → Value) :
    Call.binary ⟨env, args.map f, eval⟩ g = Call.binary ⟨env, args, evalOther f eval⟩ g := by
  match args with
  | [] | [_] | [_, _] | _ :: _ :: _ :: _ => rfl

theorem firstDefined_map (rest : List Expr) : Call.firstDefined ⟨env, args.map f, eval⟩ (rest.map f) =
    Call.firstDefined ⟨env, args, evalOther f eval⟩ rest := by
  induction rest with
  | nil => rfl
  | cons e rest ih =>
    rw [List.map_cons, Call.firstDefined, Call.firstDefined, ih]
    rfl

theorem round_map : Call.round ⟨env, args.map f, eval⟩ = Call.round ⟨env, args, evalOther f eval⟩ := by
  match args with
  | [] | [_] | [_, _] | _ :: _ :: _ :: _ => rfl

theorem references_map : Call.references ⟨env, args.map f, eval⟩ = Call.references ⟨env, args, evalOther f eval⟩ := by
  unfold Call.references
  simp only [List.map_eq_nil_iff, List.mapM_map]
  rfl

theorem run_map (b : Builtin) : Call.run ⟨env, args.map f, eval⟩ b = Call.run ⟨env, args, evalOther f eval⟩ b := by
  cases b
  all_goals simp only [Call.run]
  case coalesce => exact firstDefined_map f eval env args args
  case round => exact round_map f eval env args
  case references => exact references_map f eval env args
  case intersects | join | split | startsWith | distance | latLng => exact binary_map f eval env args _
  case after | before | operation | now | instant | datasetName | projectId => exact nullary_map f eval env args _
  all_goals exact unary_map f eval env args _

variable {args} in
theorem order_map (keys : ∀ arg ∈ args, Call.sortKey (f arg) = (f (Call.sortKey arg).1, (Call.sortKey arg).2)) (v : Value) :
    Call.order ⟨env, args.map f, eval⟩ v = Call.order ⟨env, args, evalOther f eval⟩ v := by
  have marked : (args.map f).map Call.sortKey = (args.map Call.sortKey).map fun key => (f key.1, key.2) := by
    rw [List.map_map, List.map_map]
    exact List.map_congr_left keys
  cases v with
  | array items =>
    simp only [Call.order, marked, List.map_eq_nil_iff, List.mapM_map, List.map_map]
    rfl
  | _ => rfl

end Calls

/-! ### Nodes -/

/-- A node over other parts evaluates as the node does where evaluation turns to the other parts. -/
theorem node_mapParts {e : Expr} (keeps : e.KeepsForms f) :
    Eval.node eval env (e.mapParts f) = Eval.node (evalOther f eval) env e := by
  cases e with
  | array entries => simp only [Expr.mapParts, Eval.node, elements_map]
  | object entries => simp only [Expr.mapParts, Eval.node, attributes_map]
  | filter base body =>
    show Eval.filter eval env (f base) (f body) = Eval.filter (evalOther f eval) env base body
    by_cases hb : base = .everything
    · rw [keeps.mp hb, hb]
      rfl
    · rw [filter_eq _ _ _ hb, filter_eq _ _ _ fun h => hb (keeps.mpr h)]
      rfl
  | projection base body =>
    show Eval.projection eval env (f base) (f body) = Eval.projection (evalOther f eval) env base body
    by_cases hb : base = .everything
    · rw [keeps.mp hb, hb]
      rfl
    · rw [projection_eq _ _ _ hb, projection_eq _ _ _ fun h => hb (keeps.mpr h)]
      rfl
  | call library name args =>
    simp only [Expr.mapParts, Eval.node]
    split
    · exact run_map f eval env args _
    · rfl
  | pipeCall name base args =>
    simp only [Expr.mapParts, Eval.node]
    refine congrArg (eval env (f base) >>= ·) (funext fun v => ?_)
    split
    · rename_i b _
      cases b
      exact order_map f eval env keeps v
    · rfl
  | _ => rfl

end Evaluation

end Groq
