/-
  Groq.Proofs.Expr.Shape — what a tree holds, and how deep.

  A node has parts that are evaluated where it stands, and bodies that are evaluated for items: the
  body of a filter or projection, and the arguments behind a pipe. A measure of trees is a `fold` over both.
  - `height`: the nodes on the longest path from the root to a leaf.
  - `frames`: the most bodies of filters, projections and sorting inside one another.
  - `reach`: how many frames above the current one a tree can name.
  `Contains` says that a node of the tree has a property; it can be decided (`contains_iff`).
-/

import Groq.Eval.Call

namespace Groq

def Element.value : Element → Expr
  | item e => e
  | splat e => e

def Attribute.value : Attribute → Expr
  | named _ e => e
  | splat e => e

namespace Expr

/-! ## Parts -/

/-- The expressions directly inside one. -/
def parts : Expr → List Expr
  | array entries => entries.map Element.value
  | object entries => entries.map Attribute.value
  | field base _ | element base _ | slice base _ _ _ | deref base | arrayCoerce base | group base | not base | neg base
  | pos base | asc base | desc base => [base]
  | filter base body | projection base body => [base, body]
  | and left right | or left right | binary _ left right => [left, right]
  | call _ _ args => args
  | pipeCall _ base args => base :: args
  | literal _ | this | parent _ | everything | parameter _ | ownField _ => []

/-- The parts that stand in frames of their own. -/
def bodies : Expr → List Expr
  | filter _ body | projection _ body => [body]
  | pipeCall _ _ args => args
  | _ => []

/-- The parts that stand where the expression does. -/
def standing : Expr → List Expr
  | filter base _ | projection base _ | pipeCall _ base _ => [base]
  | e => e.parts

theorem parts_eq (e : Expr) : e.parts = e.standing ++ e.bodies := by
  cases e <;> simp [parts, standing, bodies]

/-- Does evaluation push frames for the bodies? Behind a pipe only sorting does. -/
def opensFrames : Expr → Bool
  | filter _ _ | projection _ _ => true
  | pipeCall name _ _ => (PipeBuiltin.find? name).isSome
  | _ => false

/-- What is evaluated in those frames: the sort marks around keys are not. -/
def framed : Expr → List Expr
  | filter _ body | projection _ body => [body]
  | pipeCall name _ args => if (PipeBuiltin.find? name).isSome then args.map fun e => (Call.sortKey e).1 else []
  | _ => []

/-! ## Folding -/

section Fold

variable {α : Type} (f : Expr → List α → List α → α)

mutual

/-- Work a tree up from its leaves. `f` has a node, what came out for its standing parts, and what
    came out for its bodies. -/
def fold : Expr → α
  | array entries => f (array entries) (foldElements entries) []
  | object entries => f (object entries) (foldAttributes entries) []
  | field base name => f (field base name) [fold base] []
  | element base index => f (element base index) [fold base] []
  | slice base left right inclusive => f (slice base left right inclusive) [fold base] []
  | filter base body => f (filter base body) [fold base] [fold body]
  | projection base body => f (projection base body) [fold base] [fold body]
  | deref base => f (deref base) [fold base] []
  | arrayCoerce base => f (arrayCoerce base) [fold base] []
  | group base => f (group base) [fold base] []
  | call library name args => f (call library name args) (foldAll args) []
  | pipeCall name base args => f (pipeCall name base args) [fold base] (foldAll args)
  | and left right => f (and left right) [fold left, fold right] []
  | or left right => f (or left right) [fold left, fold right] []
  | not base => f (not base) [fold base] []
  | neg base => f (neg base) [fold base] []
  | pos base => f (pos base) [fold base] []
  | binary op left right => f (binary op left right) [fold left, fold right] []
  | asc base => f (asc base) [fold base] []
  | desc base => f (desc base) [fold base] []
  | literal v => f (literal v) [] []
  | this => f this [] []
  | parent levels => f (parent levels) [] []
  | everything => f everything [] []
  | parameter name => f (parameter name) [] []
  | ownField name => f (ownField name) [] []
termination_by structural e => e

def foldAll : List Expr → List α
  | [] => []
  | e :: rest => fold e :: foldAll rest
termination_by structural es => es

def foldElement : Element → α
  | .item e => fold e
  | .splat e => fold e
termination_by structural entry => entry

def foldElements : List Element → List α
  | [] => []
  | entry :: rest => foldElement entry :: foldElements rest
termination_by structural entries => entries

def foldAttribute : Attribute → α
  | .named _ e => fold e
  | .splat e => fold e
termination_by structural entry => entry

def foldAttributes : List Attribute → List α
  | [] => []
  | entry :: rest => foldAttribute entry :: foldAttributes rest
termination_by structural entries => entries

end

theorem foldAll_eq (es : List Expr) : foldAll f es = es.map (fold f) := by
  induction es with
  | nil => rfl
  | cons e rest ih => rw [foldAll, ih, List.map_cons]

theorem foldElements_eq (entries : List Element) : foldElements f entries = (entries.map Element.value).map (fold f) := by
  induction entries with
  | nil => rfl
  | cons entry rest ih =>
    rw [foldElements, ih, List.map_cons, List.map_cons]
    cases entry <;> rfl

theorem foldAttributes_eq (entries : List Attribute) :
    foldAttributes f entries = (entries.map Attribute.value).map (fold f) := by
  induction entries with
  | nil => rfl
  | cons entry rest ih =>
    rw [foldAttributes, ih, List.map_cons, List.map_cons]
    cases entry <;> rfl

theorem fold_eq (e : Expr) : fold f e = f e (e.standing.map (fold f)) (e.bodies.map (fold f)) := by
  cases e <;> simp [fold, standing, parts, bodies, foldAll_eq, foldElements_eq, foldAttributes_eq]

end Fold

/-! ## Measures -/

def greatest (ns : List Nat) : Nat := ns.foldr max 0

theorem le_greatest {n : Nat} {ns : List Nat} (h : n ∈ ns) : n ≤ greatest ns := by
  induction ns with
  | nil => cases h
  | cons m rest ih =>
    show n ≤ max m (greatest rest)
    rcases List.mem_cons.mp h with rfl | h
    · exact Nat.le_max_left _ _
    · exact Nat.le_trans (ih h) (Nat.le_max_right _ _)

theorem greatest_le {n : Nat} {ns : List Nat} (h : ∀ m ∈ ns, m ≤ n) : greatest ns ≤ n := by
  induction ns with
  | nil => exact Nat.zero_le n
  | cons m rest ih =>
    exact Nat.max_le.mpr ⟨h m List.mem_cons_self, ih fun m hm => h m (List.mem_cons_of_mem _ hm)⟩

/-- The nodes on the longest path from the root to a leaf. -/
def height : Expr → Nat := fold fun _ outer inner => greatest (outer ++ inner) + 1

/-- The most bodies of filters, projections and sorting inside one another. -/
def frames : Expr → Nat :=
  fold fun e outer inner => greatest (outer ++ if e.opensFrames then inner.map (· + 1) else inner)

/-- The number of frames above the current one that the node itself names. -/
def levelsUp : Expr → Nat
  | parent levels => levels
  | _ => 0

/-- The number of frames above the current one that a tree can name. Inside a body the nearest of
    them is the frame of the item. -/
def reach : Expr → Nat := fold fun e outer inner => greatest (e.levelsUp :: outer ++ inner.map (· - 1))

theorem height_eq (e : Expr) : e.height = greatest (e.parts.map height) + 1 := by
  rw [parts_eq, List.map_append]
  exact fold_eq _ e

theorem frames_eq (e : Expr) : e.frames = greatest (e.standing.map frames ++
    if e.opensFrames then (e.bodies.map frames).map (· + 1) else e.bodies.map frames) := fold_eq _ e

theorem reach_eq (e : Expr) :
    e.reach = greatest (e.levelsUp :: e.standing.map reach ++ (e.bodies.map reach).map (· - 1)) := fold_eq _ e

theorem height_pos (e : Expr) : 0 < e.height := by
  rw [height_eq]
  exact Nat.succ_pos _

theorem height_le_of_parts {e : Expr} {n : Nat} (h : ∀ part ∈ e.parts, part.height ≤ n) : e.height ≤ n + 1 := by
  rw [height_eq]
  refine Nat.succ_le_succ (greatest_le fun m hm => ?_)
  obtain ⟨part, mem, rfl⟩ := List.mem_map.mp hm
  exact h part mem

theorem height_part {e part : Expr} (h : part ∈ e.parts) : part.height < e.height := by
  rw [height_eq e]
  exact Nat.lt_succ_of_le (le_greatest (List.mem_map_of_mem h))

/-- What holds of an expression if it holds of its parts holds of all. By induction on the height. -/
theorem parts_induction {P : Expr → Prop} (step : ∀ e, (∀ part ∈ e.parts, P part) → P e) (e : Expr) : P e := by
  induction hn : e.height using Nat.strongRecOn generalizing e with
  | _ n ih =>
    subst hn
    exact step e fun part mem => ih part.height (height_part mem) part rfl

theorem standing_subset {e part : Expr} (h : part ∈ e.standing) : part ∈ e.parts := by
  rw [parts_eq]
  exact List.mem_append_left _ h

theorem frames_standing {e part : Expr} (h : part ∈ e.standing) : part.frames ≤ e.frames := by
  rw [frames_eq e]
  exact le_greatest (List.mem_append_left _ (List.mem_map_of_mem h))

theorem reach_standing {e part : Expr} (h : part ∈ e.standing) : part.reach ≤ e.reach := by
  rw [reach_eq e]
  exact le_greatest (List.mem_append_left _ (List.mem_cons_of_mem _ (List.mem_map_of_mem h)))

theorem levelsUp_le_reach (e : Expr) : e.levelsUp ≤ e.reach := by
  rw [reach_eq e]
  exact le_greatest (List.mem_append_left _ List.mem_cons_self)

/-! ## In frames of their own -/

/-- A sort key is its argument, or the only part of it. -/
theorem sortKey_part (e : Expr) : (Call.sortKey e).1 = e ∨ (Call.sortKey e).1 ∈ e.standing := by
  cases e with
  | asc base => exact .inr List.mem_cons_self
  | desc base => exact .inr List.mem_cons_self
  | _ => exact .inl rfl

/-- What is evaluated in frames is a body, or the key in one. -/
theorem mem_framed {e part : Expr} (h : part ∈ e.framed) :
    e.opensFrames = true ∧ ∃ body ∈ e.bodies, part = body ∨ part ∈ body.standing := by
  cases e with
  | filter base body => exact ⟨rfl, part, h, .inl rfl⟩
  | projection base body => exact ⟨rfl, part, h, .inl rfl⟩
  | pipeCall name base args =>
    simp only [framed] at h
    split at h
    · rename_i known
      obtain ⟨arg, mem, rfl⟩ := List.mem_map.mp h
      exact ⟨known, arg, mem, sortKey_part arg⟩
    · cases h
  | _ => cases h

section Framed

variable {e part : Expr} (h : part ∈ e.framed)

include h

theorem height_framed : part.height < e.height := by
  obtain ⟨-, body, mem, key⟩ := mem_framed h
  have inside : part.height ≤ body.height := by
    rcases key with rfl | key
    · exact Nat.le_refl _
    · exact Nat.le_of_lt (height_part (standing_subset key))
  have outside : body.height < e.height := by
    refine height_part ?_
    rw [parts_eq]
    exact List.mem_append_right _ mem
  exact Nat.lt_of_le_of_lt inside outside

theorem frames_framed : part.frames < e.frames := by
  obtain ⟨opens, body, mem, key⟩ := mem_framed h
  have inside : part.frames ≤ body.frames := by
    rcases key with rfl | key
    · exact Nat.le_refl _
    · exact frames_standing key
  have outside : body.frames + 1 ≤ e.frames := by
    rw [frames_eq e, if_pos opens]
    exact le_greatest (List.mem_append_right _ (List.mem_map_of_mem (List.mem_map_of_mem mem)))
  omega

theorem reach_framed : part.reach ≤ e.reach + 1 := by
  obtain ⟨-, body, mem, key⟩ := mem_framed h
  have inside : part.reach ≤ body.reach := by
    rcases key with rfl | key
    · exact Nat.le_refl _
    · exact reach_standing key
  have outside : body.reach - 1 ≤ e.reach := by
    rw [reach_eq e]
    exact le_greatest (List.mem_append_right _ (List.mem_map_of_mem (f := (· - 1)) (List.mem_map_of_mem mem)))
  omega

end Framed

/-! ## Nodes with a property -/

/-- A node of the tree has the property. -/
inductive Contains (p : Expr → Bool) : Expr → Prop
  | here {e : Expr} : p e = true → Contains p e
  | inside {e part : Expr} : part ∈ e.parts → Contains p part → Contains p e

section Contains

variable {p : Expr → Bool} {e part : Expr}

theorem Contains.of_framed (mem : part ∈ e.framed) (h : part.Contains p) : e.Contains p := by
  obtain ⟨-, body, hbody, key⟩ := mem_framed mem
  have inBody : body.Contains p := by
    rcases key with rfl | key
    · exact h
    · exact .inside (standing_subset key) h
  refine .inside ?_ inBody
  rw [parts_eq]
  exact List.mem_append_right _ hbody

variable (p) in
def hasNode : Expr → Bool := fold fun e outer inner => p e || (outer ++ inner).any id

variable (p) in
theorem hasNode_eq (e : Expr) : e.hasNode p = (p e || e.parts.any (hasNode p)) := by
  rw [parts_eq, List.any_append]
  refine (fold_eq _ e).trans ?_
  rw [List.any_append, List.any_map, List.any_map]
  rfl

/-- By induction on the tree, or on where the node is. -/
theorem contains_iff : e.hasNode p = true ↔ e.Contains p := by
  constructor
  · intro h
    induction e using parts_induction with
    | step e ih =>
      rw [hasNode_eq, Bool.or_eq_true, List.any_eq_true] at h
      rcases h with here | ⟨part, mem, inside⟩
      · exact .here here
      · exact .inside mem (ih part mem inside)
  · intro h
    induction h with
    | @here e here => rw [hasNode_eq, here, Bool.true_or]
    | @inside e part mem _ ih =>
      rw [hasNode_eq, Bool.or_eq_true, List.any_eq_true]
      exact .inr ⟨part, mem, ih⟩

instance : Decidable (e.Contains p) := decidable_of_iff _ contains_iff

end Contains

end Expr

end Groq
