/-
  Groq.Proofs.Eval.Runs — one node evaluated twice.

  Two runs of a node may differ in the environment, in the bounds, and in how the parts are evaluated.
  A `RunRelation` is a relation between runs that values and sequencing keep: equality, "what the first
  results in, the second does too", "ends only at an allowed bound". If two environments look alike to
  a node, and its parts run alike, standing and framed, the node runs alike (`node_related`).
  What the environments hold matters only to a node that reads the scope (`Expr.readsScope`).
-/

import Groq.Eval
import Groq.Proofs.Expr.Shape

namespace Groq

/-! ## Relations between runs -/

structure RunRelation where
  Rel : {α : Type} → Except Halt α → Except Halt α → Prop
  pure : ∀ {α : Type} (a : α), Rel (.ok a) (.ok a)
  bind : ∀ {α β : Type} {x y : Except Halt α} {f g : α → Except Halt β},
    Rel x y → (∀ a, Rel (f a) (g a)) → Rel (x >>= f) (y >>= g)

/-- Runs that come to a scope each, not the same one: what follows on the scopes decides. -/
def RunRelation.Begins (R : RunRelation) (x y : Except Halt Scope) : Prop :=
  ∀ {α : Type} {f g : Scope → Except Halt α},
    (∀ s t, x = .ok s → y = .ok t → R.Rel (f s) (g t)) → R.Rel (x >>= f) (y >>= g)

def RunRelation.equality : RunRelation where
  Rel x y := x = y
  pure _ := rfl
  bind := by
    rintro α β x y f g rfl next
    rw [funext next]

/-- What the first run results in, the second does too. -/
def RunRelation.refinement : RunRelation where
  Rel x y := ∀ a, x = .ok a → y = .ok a
  pure _ _ h := h
  bind := by
    intro α β x y f g h next b hb
    rcases x with halt | a
    · cases hb
    · rw [h a rfl]
      exact next a b hb

/-- Runs one after the other result in a value where each does. -/
theorem bind_ok {ε α β : Type} {x : Except ε α} {f : α → Except ε β} {b : β} (h : x >>= f = .ok b) :
    ∃ a, x = .ok a ∧ f a = .ok b := by
  rcases x with error | a
  · cases h
  · exact ⟨a, rfl, h⟩

/-! ## Runs over lists -/

/-- Where every run results in something, they do all together. -/
theorem mapM_ok {ε α β : Type} [Inhabited β] {f : α → Except ε β} {items : List α} {results : List β}
    (h : items.mapM f = .ok results) : ∃ g, (∀ a ∈ items, f a = .ok (g a)) ∧ results = items.map g := by
  refine ⟨fun a => (f a).toOption.getD default, ?_⟩
  induction items generalizing results with
  | nil =>
    cases h
    exact ⟨nofun, rfl⟩
  | cons a rest ih =>
    rw [List.mapM_cons] at h
    obtain ⟨b, first, h⟩ := bind_ok h
    obtain ⟨bs, others, h⟩ := bind_ok h
    cases h
    obtain ⟨each, rfl⟩ := ih others
    have result : (f a).toOption.getD default = b := by
      rw [first]
      rfl
    refine ⟨List.forall_mem_cons.mpr ⟨?_, each⟩, ?_⟩
    · exact first.trans (congrArg Except.ok result.symm)
    · rw [List.map_cons, result]

/-- The answer of a test that comes to one. -/
def Eval.passes (test : Except Halt Bool) : Bool := test.toOption.getD false

theorem filterM_ok {α : Type} {f : α → Except Halt Bool} {items kept : List α} (h : items.filterM f = .ok kept) :
    (∀ item ∈ items, ∃ b, f item = .ok b) ∧ kept = items.filter fun item => Eval.passes (f item) := by
  -- The loop collects what it keeps in front of `done`, last first.
  have loop : ∀ items done result, List.filterAuxM f items done = .ok result →
      (∀ item ∈ items, ∃ b, f item = .ok b) ∧
        result = (items.filter fun item => Eval.passes (f item)).reverse ++ done := by
    intro items
    induction items with
    | nil =>
      intro done result h
      cases h
      exact ⟨nofun, rfl⟩
    | cons item rest ih =>
      intro done result h
      rcases test : f item with halt | b
      · rw [List.filterAuxM, test] at h
        cases h
      · rw [List.filterAuxM, test] at h
        obtain ⟨tested, result_eq⟩ := ih _ _ h
        refine ⟨List.forall_mem_cons.mpr ⟨⟨b, test⟩, tested⟩, ?_⟩
        have answer : Eval.passes (f item) = b := by rw [test]; rfl
        rw [result_eq, List.filter_cons, answer]
        cases b <;> simp
  rw [List.filterM] at h
  obtain ⟨result, collected, reversed⟩ := bind_ok h
  cases reversed
  obtain ⟨tested, rfl⟩ := loop items [] result collected
  exact ⟨tested, by simp⟩

/-! ## Frames pushed -/

/-- The frame that pushing a value gives, room or not. -/
def Scope.inner (s : Scope) (v : Value) : Scope := { s with this := v, outer := s.this :: s.outer }

theorem Scope.push_room {s : Scope} (room : s.depth < s.maxDepth) (v : Value) : s.push v = .ok (s.inner v) := by
  unfold push nested
  rw [if_pos room]
  rfl

theorem Scope.push_full {s : Scope} (full : ¬ s.depth < s.maxDepth) (v : Value) :
    s.push v = .error (.failed (.scopeTooDeep s.maxDepth)) := by
  unfold push nested
  rw [if_neg full]
  rfl

theorem Scope.push_ok {s frame : Scope} {v : Value} (h : s.push v = .ok frame) :
    s.depth < s.maxDepth ∧ frame = s.inner v := by
  by_cases room : s.depth < s.maxDepth
  · rw [push_room room] at h
    cases h
    exact ⟨room, rfl⟩
  · rw [push_full room] at h
    cases h

/-- The values that frames show: the current one, and those outside it from the nearest on. -/
theorem Scope.ancestor_this (s : Scope) (levels : Nat) :
    (s.ancestor? levels).map (·.this) = (s.this :: s.outer)[levels]? := by
  induction levels generalizing s with
  | zero => rfl
  | succ levels ih =>
    rcases houter : s.outer with _ | ⟨this, outer⟩
    · simp [ancestor?, parent?, houter]
    · simpa [ancestor?, parent?, houter] using ih { s with this, outer }

section Related

variable {R : RunRelation} {α β : Type}

theorem begins_ok (s t : Scope) : R.Begins (.ok s) (.ok t) := fun next => next s t rfl rfl

theorem begins_push {s t : Scope} (depth : s.depth = t.depth) (bound : s.maxDepth = t.maxDepth)
    (full : ¬ s.depth < s.maxDepth → ∀ {α : Type},
      R.Rel (.error (.failed (.scopeTooDeep s.maxDepth)) : Except Halt α) (.error (.failed (.scopeTooDeep s.maxDepth))))
    (v : Value) : R.Begins (s.push v) (t.push v) := by
  by_cases room : s.depth < s.maxDepth
  · rw [Scope.push_room room, Scope.push_room (depth ▸ bound ▸ room)]
    exact begins_ok _ _
  · rw [Scope.push_full room, Scope.push_full (depth ▸ bound ▸ room), ← bound]
    exact fun _ => full room

theorem mapM_related {f g : α → Except Halt β} {items : List α} (h : ∀ a ∈ items, R.Rel (f a) (g a)) :
    R.Rel (items.mapM f) (items.mapM g) := by
  induction items with
  | nil => exact R.pure []
  | cons a rest ih =>
    simp only [List.mapM_cons]
    refine R.bind (h a List.mem_cons_self) fun b => ?_
    exact R.bind (ih fun a ha => h a (List.mem_cons_of_mem _ ha)) fun bs => R.pure (b :: bs)

theorem filterM_related {f g : α → Except Halt Bool} {items : List α} (h : ∀ a ∈ items, R.Rel (f a) (g a)) :
    R.Rel (items.filterM f) (items.filterM g) := by
  have loop : ∀ kept, R.Rel (List.filterAuxM f items kept) (List.filterAuxM g items kept) := by
    induction items with
    | nil => exact fun kept => R.pure kept
    | cons a rest ih =>
      intro kept
      exact R.bind (h a List.mem_cons_self) fun b => ih (fun a ha => h a (List.mem_cons_of_mem _ ha)) _
  exact R.bind (loop []) fun kept => R.pure kept.reverse

end Related

/-! ## What a node sees of the scope -/

/-- The functions that read the scope, whatever their arguments. -/
def Builtin.readsScope : Builtin → Bool
  | after | before | operation | now | instant | datasetName | projectId | references => true
  | _ => false

/-- What they take from it. -/
def Builtin.view (s : Scope) : Builtin → Value
  | after => s.context.delta.after
  | before => s.context.delta.before
  | operation => Call.operation s.context.delta
  | now => .string s.context.now.toText
  | instant => .dateTime s.context.now
  | datasetName => .string s.context.client.dataset
  | projectId => .string s.context.client.projectId
  | references => s.this
  | _ => .null

namespace Expr

/-- The functions that read the current value or the context. -/
def readingCalls : List (String × String) :=
  [("global", "after"), ("global", "before"), ("global", "operation"), ("global", "now"), ("global", "references"),
    ("dateTime", "now"), ("sanity", "projectId"), ("sanity", "dataset")]

/-- Does the node itself read the scope, or push a frame? -/
def readsScope : Expr → Bool
  | this | parent _ | everything | parameter _ | ownField _ | filter _ _ | projection _ _ | deref _ => true
  | call library name _ => readingCalls.contains (library, name)
  | pipeCall name _ _ => name = "order"
  | _ => false

/-- Two scopes show a node the same, its parts apart. -/
def SeesAlike (s t : Scope) : Expr → Prop
  | this | ownField _ => s.this = t.this
  | parent levels => (s.ancestor? levels).map (·.this) = (t.ancestor? levels).map (·.this)
  | everything | filter everything _ | projection everything _ => s.context.dataset = t.context.dataset
  | parameter name => s.context.parameter? name = t.context.parameter? name
  | deref _ => s.context.dereference = t.context.dereference
  | call library name _ => ∀ f, Builtin.find? library name = some f → f.view s = f.view t
  | _ => True

theorem seesAlike_refl (s : Scope) (e : Expr) : e.SeesAlike s s := by
  cases e with
  | filter base | projection base => cases base <;> simp [SeesAlike]
  | _ => simp [SeesAlike]

end Expr

/-- The functions that read the scope are those of the reading calls. -/
theorem find_reads {library name : String} {f : Builtin} (h : Builtin.find? library name = some f)
    (reads : f.readsScope = true) : (library, name) ∈ Expr.readingCalls := by
  unfold Builtin.find? at h
  split at h
  · unfold Builtin.findGlobal? at h
    split at h
    all_goals cases h
    all_goals first | decide | cases reads
  · unfold Builtin.findArray? at h
    split at h
    all_goals cases h
    all_goals cases reads
  · unfold Builtin.findString? at h
    split at h
    all_goals cases h
    all_goals cases reads
  · unfold Builtin.findMath? at h
    split at h
    all_goals cases h
    all_goals cases reads
  · split at h
    · rename_i now
      subst now
      decide
    · cases h
  · unfold Builtin.findGeo? at h
    split at h
    all_goals cases h
    all_goals cases reads
  · split at h
    all_goals cases h
    all_goals cases reads
  · unfold Builtin.findProject? at h
    split at h
    all_goals cases h
    all_goals decide
  · cases h

theorem pipe_reads {name : String} {args : List Expr} {base : Expr} (known : (PipeBuiltin.find? name).isSome = true) :
    (Expr.pipeCall name base args).readsScope = true := by
  simp only [PipeBuiltin.find?] at known
  split at known
  · simpa [Expr.readsScope]
  · cases known

/-- Two environments are alike for a node, and its parts run alike in them and in frames pushed there. -/
structure Alike (R : RunRelation) (eval₁ eval₂ : Env → Expr → Step) (env₁ env₂ : Env) (e : Expr) : Prop where
  standing : ∀ part ∈ e.standing, R.Rel (eval₁ env₁ part) (eval₂ env₂ part)
  scope : e.readsScope = true → R.Begins env₁.scope env₂.scope
  sees : ∀ s t, env₁.scope = .ok s → env₂.scope = .ok t → e.SeesAlike s t
  push : ∀ s t, env₁.scope = .ok s → env₂.scope = .ok t → e.framed ≠ [] → ∀ v, R.Begins (s.push v) (t.push v)
  framed : ∀ s t, env₁.scope = .ok s → env₂.scope = .ok t → ∀ v frame frame', s.push v = .ok frame →
    t.push v = .ok frame' → ∀ part ∈ e.framed, R.Rel (eval₁ (.inScope frame) part) (eval₂ (.inScope frame') part)

section Nodes

variable {R : RunRelation} {eval₁ eval₂ : Env → Expr → Step} {env₁ env₂ : Env}

/-! ## Literals -/

theorem elements_related {entries : List Element}
    (h : ∀ e ∈ entries.map Element.value, R.Rel (eval₁ env₁ e) (eval₂ env₂ e)) :
    R.Rel (Eval.elements eval₁ env₁ entries) (Eval.elements eval₂ env₂ entries) := by
  induction entries with
  | nil => exact R.pure _
  | cons entry rest ih =>
    have first := h entry.value List.mem_cons_self
    have ih := ih fun e he => h e (List.mem_cons_of_mem _ he)
    cases entry with
    | item e => exact R.bind first fun _ => R.bind ih fun _ => R.pure _
    | splat e => exact R.bind first fun _ => R.bind ih fun _ => R.pure _

theorem attributes_related {entries : List Attribute}
    (h : ∀ e ∈ entries.map Attribute.value, R.Rel (eval₁ env₁ e) (eval₂ env₂ e)) (fields : List (String × Value)) :
    R.Rel (Eval.attributes eval₁ env₁ fields entries) (Eval.attributes eval₂ env₂ fields entries) := by
  induction entries generalizing fields with
  | nil => exact R.pure _
  | cons entry rest ih =>
    have first := h entry.value List.mem_cons_self
    have ih := ih fun e he => h e (List.mem_cons_of_mem _ he)
    cases entry with
    | named name e => exact R.bind first fun _ => ih _
    | splat e => exact R.bind first fun _ => ih _

/-! ## Calls -/

section Calls

variable {args : List Expr}

theorem nullary_related {f : Context → Value} (scope : R.Begins env₁.scope env₂.scope)
    (sees : ∀ s t, env₁.scope = .ok s → env₂.scope = .ok t → f s.context = f t.context) :
    R.Rel (Call.nullary ⟨env₁, args, eval₁⟩ f) (Call.nullary ⟨env₂, args, eval₂⟩ f) := by
  cases args with
  | nil =>
    refine scope fun s t hs ht => ?_
    rw [sees s t hs ht]
    exact R.pure _
  | cons e rest => exact R.pure _

variable (h : ∀ e ∈ args, R.Rel (eval₁ env₁ e) (eval₂ env₂ e))

include h

theorem unary_related (f : Value → Value) :
    R.Rel (Call.unary ⟨env₁, args, eval₁⟩ f) (Call.unary ⟨env₂, args, eval₂⟩ f) := by
  match args with
  | [] => exact R.pure _
  | [e] => exact R.bind (h e List.mem_cons_self) fun _ => R.pure _
  | _ :: _ :: _ => exact R.pure _

theorem binary_related (f : Value → Value → Value) :
    R.Rel (Call.binary ⟨env₁, args, eval₁⟩ f) (Call.binary ⟨env₂, args, eval₂⟩ f) := by
  match args with
  | [] => exact R.pure _
  | [_] => exact R.pure _
  | [a, b] =>
    refine R.bind (h a List.mem_cons_self) fun _ => ?_
    exact R.bind (h b (List.mem_cons_of_mem _ List.mem_cons_self)) fun _ => R.pure _
  | _ :: _ :: _ :: _ => exact R.pure _

theorem firstDefined_related {rest : List Expr} (hr : rest ⊆ args) :
    R.Rel (Call.firstDefined ⟨env₁, args, eval₁⟩ rest) (Call.firstDefined ⟨env₂, args, eval₂⟩ rest) := by
  induction rest with
  | nil => exact R.pure _
  | cons e rest ih =>
    refine R.bind (h e (hr List.mem_cons_self)) fun v => ?_
    by_cases hv : v.isNull = true
    · simp only [hv, if_true]
      exact ih fun e he => hr (List.mem_cons_of_mem _ he)
    · simp only [hv]
      exact R.pure v

theorem round_related : R.Rel (Call.round ⟨env₁, args, eval₁⟩) (Call.round ⟨env₂, args, eval₂⟩) := by
  match args with
  | [] => exact R.pure _
  | [e] =>
    refine R.bind (h e List.mem_cons_self) fun v => ?_
    cases v <;> exact R.pure _
  | [e, precision] =>
    refine R.bind (h e List.mem_cons_self) fun v => ?_
    cases v with
    | number x => exact R.bind (h precision (List.mem_cons_of_mem _ List.mem_cons_self)) fun _ => R.pure _
    | _ => exact R.pure _
  | _ :: _ :: _ :: _ => exact R.pure _

theorem references_related (scope : R.Begins env₁.scope env₂.scope)
    (sees : ∀ s t, env₁.scope = .ok s → env₂.scope = .ok t → s.this = t.this) :
    R.Rel (Call.references ⟨env₁, args, eval₁⟩) (Call.references ⟨env₂, args, eval₂⟩) := by
  unfold Call.references
  split
  · exact R.pure _
  · refine scope fun s t hs ht => ?_
    rw [sees s t hs ht]
    exact R.bind (mapM_related h) fun values => R.pure _

theorem run_related {f : Builtin} (scope : f.readsScope = true → R.Begins env₁.scope env₂.scope)
    (sees : ∀ s t, env₁.scope = .ok s → env₂.scope = .ok t → f.view s = f.view t) :
    R.Rel (Call.run ⟨env₁, args, eval₁⟩ f) (Call.run ⟨env₂, args, eval₂⟩ f) := by
  cases f
  all_goals simp only [Call.run]
  case coalesce => exact firstDefined_related h (List.Subset.refl args)
  case round => exact round_related h
  case references => exact references_related h (scope rfl) sees
  case intersects | join | split | startsWith | distance | latLng => exact binary_related h _
  case after | before | operation | now | instant | datasetName | projectId => exact nullary_related (scope rfl) sees
  all_goals exact unary_related h _

end Calls

/-! ## Bodies and keys -/

section Frames

variable {s t : Scope}

theorem keep_related {body : Expr} (push : ∀ v, R.Begins (s.push v) (t.push v))
    (framed : ∀ v frame frame', s.push v = .ok frame → t.push v = .ok frame' →
      R.Rel (eval₁ (.inScope frame) body) (eval₂ (.inScope frame') body)) (items : List Value) :
    R.Rel (Eval.keep eval₁ s body items) (Eval.keep eval₂ t body items) := by
  refine filterM_related fun item _ => push item fun frame frame' hf hf' => ?_
  exact R.bind (framed item frame frame' hf hf') fun v => R.pure v.isTrue

theorem within_related {body : Expr} (push : ∀ v, R.Begins (s.push v) (t.push v))
    (framed : ∀ v frame frame', s.push v = .ok frame → t.push v = .ok frame' →
      R.Rel (eval₁ (.inScope frame) body) (eval₂ (.inScope frame') body)) (v : Value) :
    R.Rel (Eval.within eval₁ s body v) (Eval.within eval₂ t body v) :=
  push v fun frame frame' hf hf' => framed v frame frame' hf hf'

/-- What a filter makes of the value of its base. -/
def Eval.filterValue (eval : Env → Expr → Step) (scope : Scope) (body : Expr) : Value → Step
  | .array items => return .array (← Eval.keep eval scope body items)
  | _ => return .null

/-- What a projection makes of the value of its base. -/
def Eval.projectionValue (eval : Env → Expr → Step) (scope : Scope) (body : Expr) : Value → Step
  | .array items => return .array (← items.mapM (Eval.within eval scope body))
  | .null => return .null
  | v => Eval.within eval scope body v

/-- A filter over anything but the dataset. -/
theorem filter_eq (eval : Env → Expr → Step) (env : Env) {base : Expr} (body : Expr) (h : base ≠ .everything) :
    Eval.filter eval env base body =
      env.scope >>= fun scope => eval env base >>= Eval.filterValue eval scope body := by
  cases base <;> first | rfl | exact absurd rfl h

/-- A projection of anything but the dataset. -/
theorem projection_eq (eval : Env → Expr → Step) (env : Env) {base : Expr} (body : Expr) (h : base ≠ .everything) :
    Eval.projection eval env base body =
      env.scope >>= fun scope => eval env base >>= Eval.projectionValue eval scope body := by
  cases base <;> first | rfl | exact absurd rfl h

/-- The dataset is walked in place; it comes to the same as a value. -/
theorem filter_everything (eval : Env → Expr → Step) (env : Env) (body : Expr) :
    Eval.filter eval env .everything body =
      env.scope >>= fun scope => Eval.filterValue eval scope body (.array scope.context.dataset) := rfl

theorem projection_everything (eval : Env → Expr → Step) (env : Env) (body : Expr) :
    Eval.projection eval env .everything body =
      env.scope >>= fun scope => Eval.projectionValue eval scope body (.array scope.context.dataset) := rfl

theorem filterValue_related {body : Expr} (push : ∀ v, R.Begins (s.push v) (t.push v))
    (framed : ∀ v frame frame', s.push v = .ok frame → t.push v = .ok frame' →
      R.Rel (eval₁ (.inScope frame) body) (eval₂ (.inScope frame') body)) (v : Value) :
    R.Rel (Eval.filterValue eval₁ s body v) (Eval.filterValue eval₂ t body v) := by
  cases v with
  | array items => exact R.bind (keep_related push framed items) fun kept => R.pure _
  | _ => exact R.pure _

theorem projectionValue_related {body : Expr} (push : ∀ v, R.Begins (s.push v) (t.push v))
    (framed : ∀ v frame frame', s.push v = .ok frame → t.push v = .ok frame' →
      R.Rel (eval₁ (.inScope frame) body) (eval₂ (.inScope frame') body)) (v : Value) :
    R.Rel (Eval.projectionValue eval₁ s body v) (Eval.projectionValue eval₂ t body v) := by
  have inside := within_related push framed
  cases v with
  | array items => exact R.bind (mapM_related fun v _ => inside v) fun items => R.pure _
  | null => exact R.pure _
  | _ => exact inside _

theorem filter_related {base body : Expr} (h : Alike R eval₁ eval₂ env₁ env₂ (.filter base body)) :
    R.Rel (Eval.filter eval₁ env₁ base body) (Eval.filter eval₂ env₂ base body) := by
  have kept (s t : Scope) (hs : env₁.scope = .ok s) (ht : env₂.scope = .ok t) (v : Value) :
      R.Rel (Eval.filterValue eval₁ s body v) (Eval.filterValue eval₂ t body v) :=
    filterValue_related (h.push s t hs ht nofun) (fun v frame frame' hf hf' =>
      h.framed s t hs ht v frame frame' hf hf' body List.mem_cons_self) v
  by_cases hb : base = .everything
  · subst hb
    rw [filter_everything, filter_everything]
    refine h.scope rfl fun s t hs ht => ?_
    have dataset : s.context.dataset = t.context.dataset := h.sees s t hs ht
    rw [dataset]
    exact kept s t hs ht _
  · rw [filter_eq eval₁ env₁ body hb, filter_eq eval₂ env₂ body hb]
    exact h.scope rfl fun s t hs ht => R.bind (h.standing base List.mem_cons_self) (kept s t hs ht)

theorem projection_related {base body : Expr} (h : Alike R eval₁ eval₂ env₁ env₂ (.projection base body)) :
    R.Rel (Eval.projection eval₁ env₁ base body) (Eval.projection eval₂ env₂ base body) := by
  have inside (s t : Scope) (hs : env₁.scope = .ok s) (ht : env₂.scope = .ok t) (v : Value) :
      R.Rel (Eval.projectionValue eval₁ s body v) (Eval.projectionValue eval₂ t body v) :=
    projectionValue_related (h.push s t hs ht nofun) (fun v frame frame' hf hf' =>
      h.framed s t hs ht v frame frame' hf hf' body List.mem_cons_self) v
  by_cases hb : base = .everything
  · subst hb
    rw [projection_everything, projection_everything]
    refine h.scope rfl fun s t hs ht => ?_
    have dataset : s.context.dataset = t.context.dataset := h.sees s t hs ht
    rw [dataset]
    exact inside s t hs ht _
  · rw [projection_eq eval₁ env₁ body hb, projection_eq eval₂ env₂ body hb]
    exact h.scope rfl fun s t hs ht => R.bind (h.standing base List.mem_cons_self) (inside s t hs ht)

theorem order_related {name : String} {base : Expr} {args : List Expr}
    (h : Alike R eval₁ eval₂ env₁ env₂ (.pipeCall name base args)) (known : (PipeBuiltin.find? name).isSome = true)
    (v : Value) : R.Rel (Call.order ⟨env₁, args, eval₁⟩ v) (Call.order ⟨env₂, args, eval₂⟩ v) := by
  have keys : (Expr.pipeCall name base args).framed = args.map fun e => (Call.sortKey e).1 := if_pos known
  cases v with
  | array items =>
    unfold Call.order
    dsimp only
    split
    · exact R.pure _
    · rename_i hargs
      have some : (Expr.pipeCall name base args).framed ≠ [] := by
        rw [keys]
        exact fun none => hargs (List.map_eq_nil_iff.mp none)
      refine h.scope (pipe_reads known) fun s t hs ht => R.bind (mapM_related fun item _ => ?_) fun rows => R.pure _
      refine h.push s t hs ht some item fun frame frame' hf hf' => R.bind (mapM_related ?_) fun values => R.pure _
      rintro ⟨key, direction⟩ mem
      obtain ⟨arg, harg, hkey⟩ := List.mem_map.mp mem
      refine h.framed s t hs ht item frame frame' hf hf' key ?_
      rw [keys]
      exact List.mem_map.mpr ⟨arg, harg, congrArg Prod.fst hkey⟩
  | _ => exact R.pure _

end Frames

/-! ## Nodes -/

/-- A node runs alike where the environments are alike for it. -/
theorem node_related {e : Expr} (h : Alike R eval₁ eval₂ env₁ env₂ e) :
    R.Rel (Eval.node eval₁ env₁ e) (Eval.node eval₂ env₂ e) := by
  have sees {f : Scope → Value} (reads : e.readsScope = true) (same : ∀ s t, e.SeesAlike s t → f s = f t) :
      R.Rel (env₁.scope >>= fun s => pure (f s)) (env₂.scope >>= fun s => pure (f s)) := by
    refine h.scope reads fun s t hs ht => ?_
    rw [same s t (h.sees s t hs ht)]
    exact R.pure _
  cases e with
  | literal => exact R.pure _
  | this => exact sees rfl fun s t same => same
  | parent levels => exact sees rfl fun s t same => congrArg (·.getD .null) same
  | everything => exact sees rfl fun s t same => congrArg Value.array same
  | parameter name => exact sees rfl fun s t same => congrArg (·.getD .null) same
  | ownField name => exact sees rfl fun s t same => congrArg (·.readField name) same
  | array entries => exact R.bind (elements_related h.standing) fun _ => R.pure _
  | object entries => exact R.bind (attributes_related h.standing []) fun _ => R.pure _
  | field base => exact R.bind (h.standing base List.mem_cons_self) fun _ => R.pure _
  | element base => exact R.bind (h.standing base List.mem_cons_self) fun _ => R.pure _
  | slice base => exact R.bind (h.standing base List.mem_cons_self) fun _ => R.pure _
  | filter base body => exact filter_related h
  | projection base body => exact projection_related h
  | deref base =>
    refine h.scope rfl fun s t hs ht => R.bind (h.standing base List.mem_cons_self) fun v => ?_
    have same : s.context.dereference = t.context.dereference := h.sees s t hs ht
    rw [same]
    exact R.pure _
  | arrayCoerce base => exact R.bind (h.standing base List.mem_cons_self) fun _ => R.pure _
  | group base => exact h.standing base List.mem_cons_self
  | call library name args =>
    simp only [Eval.node]
    split
    · rename_i f hf
      refine run_related h.standing (fun reads => h.scope ?_) fun s t hs ht => h.sees s t hs ht f hf
      simpa [Expr.readsScope] using find_reads hf reads
    · exact R.pure _
  | pipeCall name base args =>
    refine R.bind (h.standing base List.mem_cons_self) fun v => ?_
    split
    · rename_i f hf
      cases f
      exact order_related h (by rw [hf]; rfl) v
    · exact R.pure _
  | not base => exact R.bind (h.standing base List.mem_cons_self) fun _ => R.pure _
  | neg base => exact R.bind (h.standing base List.mem_cons_self) fun _ => R.pure _
  | pos base => exact R.bind (h.standing base List.mem_cons_self) fun _ => R.pure _
  | and left right | or left right | binary _ left right =>
    refine R.bind (h.standing left List.mem_cons_self) fun _ => ?_
    exact R.bind (h.standing right (List.mem_cons_of_mem _ List.mem_cons_self)) fun _ => R.pure _
  | asc => exact R.pure _
  | desc => exact R.pure _

end Nodes

/-! ## Values -/

section Values

variable {limits : Limits} {depth : Nat} {env : Env} {left right : Expr} {v w : Value}

theorem evalAt_binary (foundLeft : evalAt limits depth env left = .ok v) (foundRight : evalAt limits depth env right = .ok w)
    (op : BinaryOp) : evalAt limits (depth + 1) env (.binary op left right) = .ok (Eval.applyBinary op v w) := by
  show (evalAt limits depth env left >>= fun v => evalAt limits depth env right >>= fun w =>
    pure (Eval.applyBinary op v w)) = _
  rw [foundLeft, foundRight]
  rfl

theorem Call.binary_value {eval : Env → Expr → Step} (foundLeft : eval env left = .ok v) (foundRight : eval env right = .ok w)
    (f : Value → Value → Value) : Call.binary ⟨env, [left, right], eval⟩ f = .ok (f v w) := by
  show (eval env left >>= fun v => eval env right >>= fun w => pure (f v w)) = _
  rw [foundLeft, foundRight]
  rfl

end Values

end Groq
