/-
  Groq.Proofs.Scope.Frames — the frames are a bounded stack.

  From the root, frames are pushed, for values that they own or that are lent, and popped. A push may be refused, and
  at the root there is nothing to pop; what happened is kept as a list of events. The values pushed and not popped
  since then are the stack (`opened`). A frame stands for a stack if the frames it is linked to hold its values, and
  all of them have the context, the bound, and the number of values up to their own (`Stacked`). What a step can do is
  said once (`Stacked.step_cases`); a step follows the stack (`Stacked.step`), so a run does (`Stacked.run`).
  Proved: after any run the number of the frame, the frames outside it and their values are those of the stack, a push on
  a full stack is refused and leaves the frame, and evaluation sees the same frames (`run_stack`).
-/

import Groq.Scope.Frame

namespace Groq.Scope.Frame

/-! ## Runs -/

inductive Move where
  | nested (v : Value)
  | nestedLent (v : Value)
  | pop

/-- What came of a move. -/
inductive Event where
  | pushed (v : Value)
  | refused (cause : EvalError)
  | popped (v : Value)
  /-- There is no frame to pop at the root. -/
  | stayed

namespace Event

def isPush : Event → Bool
  | pushed _ => true
  | _ => false

def isPop : Event → Bool
  | popped _ => true
  | _ => false

/-- The stack after the event. -/
def follow (values : List Value) : Event → List Value
  | pushed v => v :: values
  | popped _ => values.tail
  | refused _ | stayed => values

end Event

/-- The values pushed and not popped since then, the last one first. -/
def opened (past : List Event) : List Value := past.foldl Event.follow []

/-- Go on in the frame pushed for a value, or stay where the push was refused. -/
def enter (f : Frame) (v : Value) : Except EvalError Frame → Event × Frame
  | .ok next => (.pushed v, next)
  | .error cause => (.refused cause, f)

def step (f : Frame) : Move → Event × Frame
  | .nested v => f.enter v (f.nested v)
  | .nestedLent v => f.enter v (f.nestedLent v)
  | .pop =>
    match f.parent? with
    | some parent => (.popped f.intoThis, parent)
    | none => (.stayed, f)

/-- The moves one after the other: what came of each, and the frame they lead to. -/
def run (f : Frame) : List Move → List Event × Frame
  | [] => ([], f)
  | move :: rest => ((f.step move).1 :: ((f.step move).2.run rest).1, ((f.step move).2.run rest).2)

/-! ## Stacks -/

/-- The frame stands for a stack of values, the last one pushed first. -/
inductive Stacked (context : Context) (maxDepth : Nat) : List Value → Frame → Prop
  | root : Stacked context maxDepth [] (root context maxDepth)
  | inner {values : List Value} {parent : Frame} (held : Held) : Stacked context maxDepth values parent →
      values.length < maxDepth →
      Stacked context maxDepth (held.value :: values) (inner parent context held (values.length + 1) maxDepth)

theorem intoThis_eq (f : Frame) : f.intoThis = f.this := by
  unfold intoThis this Held.value
  cases f.held <;> rfl

namespace Stacked

variable {context : Context} {maxDepth : Nat} {values : List Value} {f g : Frame} {n : Nat}

theorem context_eq (h : Stacked context maxDepth values f) : f.context = context := by
  cases h <;> rfl

theorem maxDepth_eq (h : Stacked context maxDepth values f) : f.maxDepth = maxDepth := by
  cases h <;> rfl

theorem depth_eq (h : Stacked context maxDepth values f) : f.depth = values.length := by
  cases h <;> rfl

theorem bounded (h : Stacked context maxDepth values f) : values.length ≤ maxDepth := by
  cases h with
  | root => exact Nat.zero_le _
  | inner _ _ room => exact room

theorem this_eq (h : Stacked context maxDepth values f) : (values ++ [.null])[0]? = some f.this := by
  cases h <;> rfl

/-! ### Links -/

/-- There are as many links as values, and behind each one value fewer. -/
theorem ancestor (h : Stacked context maxDepth values f) (le : n ≤ values.length) :
    ∃ g, f.ancestor? n = some g ∧ Stacked context maxDepth (values.drop n) g := by
  induction n generalizing values f with
  | zero => exact ⟨f, rfl, h⟩
  | succ n ih =>
    cases h with
    | root => cases le
    | inner held below _ => exact ih below (Nat.le_of_succ_le_succ le)

theorem no_ancestor (h : Stacked context maxDepth values f) (beyond : values.length < n) : f.ancestor? n = none := by
  induction n generalizing values f with
  | zero => cases beyond
  | succ n ih =>
    cases h with
    | root => rfl
    | inner held below _ => exact ih below (Nat.lt_of_succ_lt_succ beyond)

theorem ancestor_iff (h : Stacked context maxDepth values f) : (∃ g, f.ancestor? n = some g) ↔ n ≤ f.depth := by
  rw [h.depth_eq]
  constructor
  · rintro ⟨g, found⟩
    refine Nat.le_of_not_lt fun beyond => ?_
    rw [h.no_ancestor beyond] at found
    cases found
  · intro le
    obtain ⟨g, found, -⟩ := h.ancestor le
    exact ⟨g, found⟩

theorem of_ancestor (h : Stacked context maxDepth values f) (found : f.ancestor? n = some g) :
    Stacked context maxDepth (values.drop n) g ∧ (values ++ [.null])[n]? = some g.this := by
  have le : n ≤ values.length := h.depth_eq ▸ h.ancestor_iff.mp ⟨g, found⟩
  obtain ⟨g', found', stacked⟩ := h.ancestor le
  obtain rfl : g' = g := Option.some.inj (found'.symm.trans found)
  refine ⟨stacked, ?_⟩
  rw [← stacked.this_eq, ← List.drop_append_of_le_length le, List.getElem?_drop, Nat.add_zero]

/-! ### Steps -/

theorem push_room (h : Stacked context maxDepth values f) (room : f.depth < maxDepth) (held : Held) :
    ∃ g, f.push held = .ok g ∧ g.parent? = some f ∧ Stacked context maxDepth (held.value :: values) g := by
  have below : ¬ f.maxDepth ≤ f.depth := by
    rw [h.maxDepth_eq]
    exact Nat.not_le_of_lt room
  refine ⟨.inner f context held (values.length + 1) maxDepth, ?_, rfl, .inner held h (h.depth_eq ▸ room)⟩
  unfold push
  rw [if_neg below, h.context_eq, h.maxDepth_eq, h.depth_eq]

theorem push_full (h : Stacked context maxDepth values f) (full : f.depth = maxDepth) (held : Held) :
    f.push held = .error (.scopeTooDeep maxDepth) := by
  unfold push
  rw [h.maxDepth_eq, if_pos (Nat.le_of_eq full.symm)]

/-- A push is taken where there is room, and else refused. -/
theorem enter_cases (h : Stacked context maxDepth values f) (held : Held) :
    (∃ g, f.enter held.value (f.push held) = (.pushed held.value, g) ∧ Stacked context maxDepth (held.value :: values) g) ∨
      f.depth = maxDepth ∧ f.enter held.value (f.push held) = (.refused (.scopeTooDeep maxDepth), f) := by
  have bounded := h.bounded
  rw [← h.depth_eq] at bounded
  rcases Nat.lt_or_eq_of_le bounded with room | full
  · obtain ⟨g, pushed, -, stacked⟩ := h.push_room room held
    rw [pushed]
    exact .inl ⟨g, rfl, stacked⟩
  · rw [h.push_full full]
    exact .inr ⟨full, rfl⟩

/-- What a step can do. -/
theorem step_cases (h : Stacked context maxDepth values f) (move : Move) :
    (∃ v g, f.step move = (.pushed v, g) ∧ Stacked context maxDepth (v :: values) g) ∨
      f.step move = (.refused (.scopeTooDeep maxDepth), f) ∨
      (∃ v below g, f.step move = (.popped v, g) ∧ values = v :: below ∧ Stacked context maxDepth below g) ∨
      f.step move = (.stayed, f) := by
  cases move with
  | nested v => exact (h.enter_cases (.owned v)).imp (fun taken => ⟨v, taken⟩) fun refused => .inl refused.2
  | nestedLent v => exact (h.enter_cases (.lent v)).imp (fun taken => ⟨v, taken⟩) fun refused => .inl refused.2
  | pop =>
    cases h with
    | root => exact .inr (.inr (.inr rfl))
    | inner held below _ =>
      refine .inr (.inr (.inl ⟨held.value, _, _, ?_, rfl, below⟩))
      exact congrArg (fun v => (Event.popped v, _)) (intoThis_eq _)

/-- The stack follows the event, and the number of the frame goes up with a push and down with a pop. -/
theorem step (h : Stacked context maxDepth values f) (move : Move) :
    Stacked context maxDepth (Event.follow values (f.step move).1) (f.step move).2 ∧
      (f.step move).2.depth + [(f.step move).1].countP Event.isPop =
        f.depth + [(f.step move).1].countP Event.isPush := by
  have before := h.depth_eq
  rcases h.step_cases move with ⟨v, g, step, pushed⟩ | step | ⟨v, below, g, step, rfl, popped⟩ | step
  · have after : g.depth = f.depth + 1 := pushed.depth_eq.trans (congrArg Nat.succ before.symm)
    rw [step]
    exact ⟨pushed, after⟩
  · rw [step]
    exact ⟨h, rfl⟩
  · have after : g.depth + 1 = f.depth := (congrArg Nat.succ popped.depth_eq).trans before.symm
    rw [step]
    exact ⟨popped, after⟩
  · rw [step]
    exact ⟨h, rfl⟩

/-- By induction on the moves. -/
theorem run (h : Stacked context maxDepth values f) (moves : List Move) :
    Stacked context maxDepth ((f.run moves).1.foldl Event.follow values) (f.run moves).2 ∧
      (f.run moves).2.depth + (f.run moves).1.countP Event.isPop = f.depth + (f.run moves).1.countP Event.isPush := by
  induction moves generalizing f values with
  | nil => exact ⟨h, rfl⟩
  | cons move rest ih =>
    obtain ⟨first, count⟩ := h.step move
    obtain ⟨last, count'⟩ := ih first
    refine ⟨last, ?_⟩
    simp only [Frame.run, List.countP_cons, List.countP_nil] at *
    omega

/-! ### What evaluation sees -/

theorem scope_eq (h : Stacked context maxDepth values f) :
    f.scope.context = context ∧ f.scope.maxDepth = maxDepth ∧ f.scope.this :: f.scope.outer = values ++ [.null] := by
  induction h with
  | root => exact ⟨rfl, rfl, rfl⟩
  | inner held _ _ ih => exact ⟨rfl, rfl, congrArg (held.value :: ·) ih.2.2⟩

theorem scope_depth (h : Stacked context maxDepth values f) : f.scope.depth = f.depth := by
  have length := congrArg List.length h.scope_eq.2.2
  rw [List.length_cons, List.length_append, List.length_singleton] at length
  rw [h.depth_eq]
  exact Nat.succ.inj length

theorem scope_parent (h : Stacked context maxDepth values f) : f.scope.parent? = f.parent?.map scope := by
  cases h with
  | root => rfl
  | @inner _ parent held below _ =>
    obtain ⟨sameContext, sameBound, -⟩ := below.scope_eq
    show some (Scope.mk context maxDepth parent.scope.this parent.scope.outer) = some parent.scope
    rw [← sameContext, ← sameBound]

theorem scope_ancestor (h : Stacked context maxDepth values f) (n : Nat) :
    f.scope.ancestor? n = (f.ancestor? n).map scope := by
  induction n generalizing values f with
  | zero => rfl
  | succ n ih =>
    rw [Scope.ancestor?, h.scope_parent]
    cases h with
    | root => rfl
    | inner held below _ => exact ih below

theorem scope_nested (h : Stacked context maxDepth values f) (held : Held) :
    f.scope.nested held.value = (f.push held).map scope := by
  obtain ⟨sameContext, sameBound, -⟩ := h.scope_eq
  unfold Scope.nested push
  rw [h.scope_depth, sameBound, h.maxDepth_eq]
  by_cases room : f.depth < maxDepth
  · rw [if_pos room, if_neg (Nat.not_le_of_lt room), h.context_eq, ← sameContext, ← sameBound]
    rfl
  · rw [if_neg room, if_pos (Nat.le_of_not_lt room)]
    rfl

end Stacked

/-- The scope answers as the frame does, and goes on as it does. -/
structure Shows (f : Frame) (s : Scope) : Prop where
  context : s.context = f.context
  maxDepth : s.maxDepth = f.maxDepth
  this : s.this = f.this
  depth : s.depth = f.depth
  nested : ∀ held : Held, s.nested held.value = (f.push held).map scope
  parent : s.parent? = f.parent?.map scope
  ancestor : ∀ n, s.ancestor? n = (f.ancestor? n).map scope

theorem Stacked.shows {context : Context} {maxDepth : Nat} {values : List Value} {f : Frame}
    (h : Stacked context maxDepth values f) : f.Shows f.scope where
  context := h.scope_eq.1.trans h.context_eq.symm
  maxDepth := h.scope_eq.2.1.trans h.maxDepth_eq.symm
  this := by cases f <;> rfl
  depth := h.scope_depth
  nested := h.scope_nested
  parent := h.scope_parent
  ancestor := h.scope_ancestor

/-- After any moves the number of a frame is that of the pushes less that of the pops, within the bound; there are
    as many frames outside it, each with the context and the value pushed so many pushes below, null at the root, and each
    gives that value back, its own or lent. On a full stack a push is refused and changes nothing, on any other
    it is taken. Evaluation has the same frames. -/
theorem run_stack (context : Context) (maxDepth : Nat) (moves : List Move) :
    ∃ past f, (root context maxDepth).run moves = (past, f) ∧
      f.depth + past.countP Event.isPop = past.countP Event.isPush ∧ f.depth ≤ maxDepth ∧
      (opened past).length = f.depth ∧
      (∀ n, (∃ g, f.ancestor? n = some g) ↔ n ≤ f.depth) ∧
      (∀ n g, f.ancestor? n = some g →
        g.context = context ∧ (opened past ++ [.null])[n]? = some g.this ∧ g.intoThis = g.this) ∧
      (f.depth = maxDepth → ∀ v, f.step (.nested v) = (.refused (.scopeTooDeep maxDepth), f) ∧
        f.step (.nestedLent v) = (.refused (.scopeTooDeep maxDepth), f)) ∧
      (f.depth < maxDepth → ∀ held, ∃ g, f.push held = .ok g ∧ g.parent? = some f ∧ g.intoThis = held.value) ∧
      f.Shows f.scope := by
  have start : Stacked context maxDepth [] (root context maxDepth) := .root
  obtain ⟨stacked, count⟩ := start.run moves
  refine ⟨_, _, rfl, ?count, ?bound, stacked.depth_eq.symm, fun n => stacked.ancestor_iff, ?ancestors, ?full, ?room,
    stacked.shows⟩
  case count => exact count.trans (Nat.zero_add _)
  case bound => exact stacked.depth_eq ▸ stacked.bounded
  case ancestors =>
    intro n g found
    obtain ⟨outer, value⟩ := stacked.of_ancestor found
    exact ⟨outer.context_eq, value, intoThis_eq g⟩
  case full =>
    intro full v
    have refused := stacked.push_full full
    exact ⟨congrArg (enter _ v) (refused (.owned v)), congrArg (enter _ v) (refused (.lent v))⟩
  case room =>
    intro room held
    obtain ⟨g, pushed, parent, outer⟩ := stacked.push_room room held
    refine ⟨g, pushed, parent, ?_⟩
    exact (intoThis_eq g).trans (Option.some.inj outer.this_eq).symm

/-- The stack is full after one push, and the value that is popped is the one that was pushed. -/
example (context : Context) :
    ((root context 1).run [.pop, .nestedLent (.bool true), .nested .null, .pop]).1 =
      [.stayed, .pushed (.bool true), .refused (.scopeTooDeep 1), .popped (.bool true)] := rfl

end Groq.Scope.Frame
