/-
  Groq.Proofs.Eval.Reads — a query sees of its context what it names.

  Names stand in the tree: a parameter by its name, the dataset by `*` and by following references,
  and the rest of the context by the functions that report it. Everything evaluated on the way, in whatever
  frame, is a part of the tree, so two contexts that agree on what a tree names agree on what its parts
  name (`Context.AgreeOn.of_part`), and the frames on both sides hold the same values.
  Proved: in two reachable contexts that agree on what a query names it has the same value, or halts for the
  same cause (`evaluate_agree`). Where a context is not reachable its index need not be that of its dataset.
-/

import Groq.Proofs.Context.Lookup
import Groq.Proofs.Eval.Runs

namespace Groq

/-! ## What a tree names -/

namespace Expr

def isParameter (name : String) : Expr → Bool
  | parameter other => other = name
  | _ => false

def isDeref : Expr → Bool
  | deref _ => true
  | _ => false

def readsDataset : Expr → Bool
  | everything | deref _ => true
  | _ => false

/-- A call of one of these functions, by library and name. -/
def callsOneOf (functions : List (String × String)) : Expr → Bool
  | call library name _ => functions.contains (library, name)
  | _ => false

end Expr

/-- Two contexts are the same in what a tree names. Types that references may lead to are a set. -/
structure Context.AgreeOn (e : Expr) (c c' : Context) : Prop where
  parameters : ∀ name, e.Contains (Expr.isParameter name) → c.parameter? name = c'.parameter? name
  dataset : e.Contains Expr.readsDataset → c.dataset = c'.dataset
  referenceTypes : e.Contains Expr.isDeref →
    Option.Rel (fun types types' => ∀ type, type ∈ types ↔ type ∈ types') c.referenceTypes c'.referenceTypes
  delta : e.Contains (Expr.callsOneOf [("global", "before"), ("global", "after"), ("global", "operation")]) →
    c.delta = c'.delta
  client : e.Contains (Expr.callsOneOf [("sanity", "projectId"), ("sanity", "dataset")]) → c.client = c'.client
  now : e.Contains (Expr.callsOneOf [("global", "now"), ("dateTime", "now")]) → c.now = c'.now

section Agree

variable {c c' : Context} {e part : Expr}

theorem Context.AgreeOn.of_part (h : c.AgreeOn e c') (inside : ∀ {p : Expr → Bool}, part.Contains p → e.Contains p) :
    c.AgreeOn part c' where
  parameters name named := h.parameters name (inside named)
  dataset named := h.dataset (inside named)
  referenceTypes named := h.referenceTypes (inside named)
  delta named := h.delta (inside named)
  client named := h.client (inside named)
  now named := h.now (inside named)

/-! ## References -/

theorem allows_congr (types : Option.Rel (fun types types' => ∀ type, type ∈ types ↔ type ∈ types')
    c.referenceTypes c'.referenceTypes) (document : Value) : c.allows document = c'.allows document := by
  rw [Bool.eq_iff_iff, Context.allows_iff, Context.allows_iff]
  generalize c.referenceTypes = restriction, c'.referenceTypes = restriction' at types
  cases types with
  | none => rfl
  | some same => simp [same]

/-- A node that follows references names all that this depends on. -/
theorem Context.AgreeOn.dereference (h : c.AgreeOn e c') (reach : c.Reachable) (reach' : c'.Reachable)
    (deref : e.Contains Expr.isDeref) (dataset : e.Contains Expr.readsDataset) : c.dereference = c'.dereference := by
  refine funext (Context.dereference_congr fun r => ?_)
  unfold Context.resolve?
  rw [reach.document?, reach'.document?, h.dataset dataset]
  simp only [allows_congr (h.referenceTypes deref)]

/-! ## Scopes -/

/-- The same frames over another context. -/
def Scope.inContext (s : Scope) (c : Context) : Scope := { s with context := c }

variable {s : Scope}

theorem ancestor_inContext (levels : Nat) :
    ((s.inContext c).ancestor? levels).map (·.this) = (s.ancestor? levels).map (·.this) := by
  rw [Scope.ancestor_this, Scope.ancestor_this]
  rfl

/-- A function that reads the context is one of those named. -/
theorem view_inContext {library name : String} {args : List Expr} (h : s.context.AgreeOn (.call library name args) c)
    {f : Builtin} (hf : Builtin.find? library name = some f) : f.view s = f.view (s.inContext c) := by
  by_cases reads : f.readsScope = true
  · have named := find_reads hf reads
    simp only [Expr.readingCalls, List.mem_cons, Prod.mk.injEq, List.not_mem_nil, or_false] at named
    rcases named with ⟨rfl, rfl⟩ | ⟨rfl, rfl⟩ | ⟨rfl, rfl⟩ | ⟨rfl, rfl⟩ | ⟨rfl, rfl⟩ | ⟨rfl, rfl⟩ | ⟨rfl, rfl⟩ | ⟨rfl, rfl⟩
    all_goals cases hf
    · exact congrArg Delta.after (h.delta (.here rfl))
    · exact congrArg Delta.before (h.delta (.here rfl))
    · exact congrArg Call.operation (h.delta (.here rfl))
    · exact congrArg (fun now => Value.string now.toText) (h.now (.here rfl))
    · rfl
    · exact congrArg Value.dateTime (h.now (.here rfl))
    · exact congrArg (fun client => Value.string client.projectId) (h.client (.here rfl))
    · exact congrArg (fun client => Value.string client.dataset) (h.client (.here rfl))
  · cases f <;> first | exact absurd rfl reads | rfl

/-- A node shows the same in both contexts if they agree on what it names. -/
theorem seesAlike_inContext (h : s.context.AgreeOn e c) (reach : s.context.Reachable) (reach' : c.Reachable) :
    e.SeesAlike s (s.inContext c) := by
  cases e with
  | this => rfl
  | ownField name => rfl
  | parent levels => exact (ancestor_inContext levels).symm
  | everything => exact h.dataset (.here rfl)
  | parameter name => exact h.parameters name (.here (decide_eq_true rfl))
  | deref base => exact h.dereference reach reach' (.here rfl) (.here rfl)
  | call library name args => exact fun f hf => view_inContext h hf
  | filter base body | projection base body =>
    cases base with
    | everything => exact h.dataset (.inside List.mem_cons_self (.here rfl))
    | _ => trivial
  | _ => trivial

/-! ## Runs -/

/-- By induction on the depth. Frames pushed on both sides hold the same value over the two contexts. -/
theorem evalAt_agree (limits : Limits) (depth : Nat) (s : Scope) (h : s.context.AgreeOn e c)
    (reach : s.context.Reachable) (reach' : c.Reachable) :
    evalAt limits depth (.inScope s) e = evalAt limits depth (.inScope (s.inContext c)) e := by
  induction depth generalizing s e with
  | zero => rfl
  | succ depth ih =>
    refine node_related (R := RunRelation.equality)
      { standing := fun part mem => ih s (h.of_part (.inside (Expr.standing_subset mem))) reach
        scope := fun _ => begins_ok s (s.inContext c)
        sees := ?_
        push := ?_
        framed := ?_ }
    · rintro s' t' ⟨⟩ ⟨⟩
      exact seesAlike_inContext h reach reach'
    · rintro s' t' ⟨⟩ ⟨⟩ -
      exact begins_push rfl rfl fun _ {_} => rfl
    · rintro s' t' ⟨⟩ ⟨⟩ v frame frame' hf hf' part mem
      obtain ⟨-, rfl⟩ := Scope.push_ok hf
      obtain ⟨-, rfl⟩ := Scope.push_ok hf'
      exact ih (s.inner v) (h.of_part (.of_framed mem)) reach

end Agree

/-- A query has the same value, or stops for the same cause, in two contexts that agree on what it names. -/
theorem evaluate_agree (limits : Limits) (c c' : Context) (e : Expr) (reach : c.Reachable) (reach' : c'.Reachable)
    (agree : c.AgreeOn e c') : evaluate limits c e = evaluate limits c' e := by
  have run : evalAt limits limits.eval (.inScope (.root c limits.scope)) e =
      evalAt limits limits.eval (.inScope (.root c' limits.scope)) e := evalAt_agree limits limits.eval _ agree reach reach'
  unfold evaluate
  rw [run]

/-! ## Two contexts -/

/-- An empty dataset, and two parameters. -/
def Context.firstTenant : Context :=
  (ofDataset [] ⟨0, 0⟩).configure [.parameter "x" (.bool true), .parameter "y" .null]

/-- A dataset, a client and a change, and one of the parameters of the first. -/
def Context.secondTenant : Context :=
  (ofDataset [.object [("_id", .string "a")]] ⟨0, 0⟩).configure
    [.client ⟨"p", "d"⟩, .delta .null (.bool false), .referenceTypes [], .parameters [("x", .bool true)]]

/-- A query that names a parameter and the instant sees nothing else of what the contexts hold. -/
theorem evaluate_agree_parameter : Context.firstTenant.Reachable ∧ Context.secondTenant.Reachable ∧
    Context.firstTenant.AgreeOn (.array [.item (.parameter "x"), .item (.call "global" "now" [])]) .secondTenant ∧
    evaluate {} .firstTenant (.array [.item (.parameter "x"), .item (.call "global" "now" [])]) =
      evaluate {} .secondTenant (.array [.item (.parameter "x"), .item (.call "global" "now" [])]) := by
  have reach : Context.firstTenant.Reachable := ⟨_, _, _, rfl⟩
  have reach' : Context.secondTenant.Reachable := ⟨_, _, _, rfl⟩
  have agree : Context.firstTenant.AgreeOn (.array [.item (.parameter "x"), .item (.call "global" "now" [])])
      .secondTenant := by
    refine ⟨fun name named => ?_, fun h => absurd h (by decide), fun h => absurd h (by decide),
      fun h => absurd h (by decide), fun h => absurd h (by decide), fun _ => rfl⟩
    obtain rfl : "x" = name := by
      simpa [← Expr.contains_iff, Expr.hasNode_eq, Expr.parts, Element.value, Expr.isParameter] using named
    rfl
  exact ⟨reach, reach', agree, evaluate_agree {} _ _ _ reach reach' agree⟩

end Groq
