/-
  Groq.Proofs.Query.Reuse — a parser may run again.

  A parser keeps its memory, and less depth may be left to a later run than to the first. What the first
  run completed the later one finds in the memory and does not compute again, so it comes to where the
  first ended with the memory as it was then. If that was a bound, nothing of what the first run had begun
  is in the memory: what a computation adds lies below it (`Spot.Below`), in shorter stretches or at
  tighter levels. So the later run begins all of it again, with no more depth, and ends at the bound too.
  `replays` relates a run and what may follow it from the memory that it leaves.
  Proved: every run of a parser ends as the first one did (`Parser.run_again`).
-/

import Groq.Proofs.Query.Memory

namespace Groq.Query

/-! ## Memories -/

/-- What is remembered in the one is remembered in the other. -/
def Memory.KeptIn (memory later : Memory) : Prop := ∀ (p : Spot) (r : Option Expr), memory[p]? = some r → later[p]? = some r

theorem Memory.KeptIn.trans {memory middle later : Memory} (h : memory.KeptIn middle) (h' : middle.KeptIn later) :
    memory.KeptIn later := fun p r hr => h' p r (h p r hr)

namespace Spot

/-- A stretch shorter than a span. -/
def Shorter (s : Span) (p : Spot) : Prop := p.length < s.chars.length

/-- A shorter stretch, or one of this length at a tighter level: what parsing a span at a level asks about. -/
def Below (l : Level) (s : Span) (p : Spot) : Prop :=
  p.length < s.chars.length ∨ p.length = s.chars.length ∧ p.level.rank < l.rank

/-- What is below a spot, and the spot. -/
def UpTo (l : Level) (s : Span) (p : Spot) : Prop := p = s.spot l ∨ Below l s p

variable {l l' : Level} {s t : Span} {p : Spot}

theorem not_below_self : ¬ Below l s (s.spot l) := by
  rintro (shorter | ⟨-, tighter⟩)
  · exact Nat.lt_irrefl _ shorter
  · exact Nat.lt_irrefl _ tighter

theorem below_of_inside (ht : t.Inside s) (h : UpTo l' t p) : Below l s p := by
  have shorter := ht.2
  rcases h with rfl | h | ⟨h, -⟩
  · exact .inl shorter
  · exact .inl (Nat.lt_trans h shorter)
  · exact .inl (h ▸ shorter)

theorem below_of_tighter (operand : l ≠ .operand) (h : UpTo l.tighter s p) : Below l s p := by
  have tighter := Level.rank_tighter operand
  rcases h with rfl | h | ⟨h, h'⟩
  · exact .inr ⟨rfl, tighter⟩
  · exact .inl h
  · exact .inr ⟨h, Nat.lt_trans h' tighter⟩

theorem shorter_of_inside (ht : t.Inside s) (h : UpTo l t p) : Shorter s p := by
  have shorter := ht.2
  rcases h with rfl | h | ⟨h, -⟩
  · exact shorter
  · exact Nat.lt_trans h shorter
  · exact Nat.lt_of_le_of_lt (Nat.le_of_eq h) shorter

end Spot

/-! ## Runs that follow a run -/

section Replays

/-- A run came from one memory to a result and another memory, and `y` may follow it. From any memory with
    what this one has, `y` comes to the same value or to a bound, and learns nothing; where the run
    ended at a bound, `y` does. What the run added is at spots that are allowed. -/
structure Replay (constant? : Expr → Option Value) (whole : Span) (allowed : Spot → Prop) {α : Type} (v : α)
    (y : Remembering α) (memory : Memory) (result : Except Exhausted α) (next : Memory) : Prop where
  sound : next.Sound constant? whole
  grows : memory.KeptIn next
  elsewhere : ∀ p, ¬ allowed p → next[p]? = memory[p]?
  ends : result = .ok v ∨ ∃ e, result = .error e
  again : result = .ok v → ∀ later, next.KeptIn later →
    y.run.run later = (.ok v, later) ∨ ∃ e, y.run.run later = (.error e, later)
  stuck : ∀ e, result = .error e → ∃ e', y.run.run next = (.error e', next)

/-- The second run may follow the first, wherever that one began. -/
def replays (constant? : Expr → Option Value) (whole : Span) (allowed : Spot → Prop) : Simulation Remembering Remembering where
  Rel v x y := ∀ memory result next, memory.Sound constant? whole → x.run.run memory = (result, next) →
    Replay constant? whole allowed v y memory result next
  pure a memory result next sound run := by
    cases run
    exact ⟨sound, fun _ _ h => h, fun _ _ => rfl, .inl rfl, fun _ _ _ => .inl rfl, nofun⟩
  bind := by
    intro α β a b x y f g first second memory result next sound run
    rw [run_bind_remembering] at run
    rcases hx : x.run.run memory with ⟨e | a', middle⟩
    · rw [hx] at run
      cases run
      have h := first memory _ _ sound hx
      obtain ⟨e', hy⟩ := h.stuck e rfl
      refine ⟨h.sound, h.grows, h.elsewhere, .inr ⟨e, rfl⟩, nofun, fun _ _ => ⟨e', ?_⟩⟩
      rw [run_bind_remembering, hy]
    · rw [hx] at run
      have h := first memory _ _ sound hx
      obtain rfl : a' = a := by
        rcases h.ends with same | ⟨e, failed⟩
        · exact Except.ok.inj same
        · cases failed
      have h' := second middle result next h.sound run
      -- The second half of `y` begins where its first half ends, with the memory as it was.
      have onward {later : Memory} (kept : middle.KeptIn later) {r : Except Exhausted β}
          (hg : (g a').run.run later = (r, later)) :
          (y >>= g).run.run later = (r, later) ∨ ∃ e, (y >>= g).run.run later = (.error e, later) := by
        rw [run_bind_remembering]
        rcases h.again rfl later kept with hy | ⟨e, hy⟩
        · rw [hy]
          exact .inl hg
        · rw [hy]
          exact .inr ⟨e, rfl⟩
      refine ⟨h'.sound, h.grows.trans h'.grows, ?_, h'.ends, fun found later kept => ?_, fun e failed => ?_⟩
      · exact fun p hp => (h'.elsewhere p hp).trans (h.elsewhere p hp)
      · rcases h'.again found later kept with hg | ⟨e, hg⟩
        · exact onward (h'.grows.trans kept) hg
        · exact (onward (h'.grows.trans kept) hg).elim (fun hr => .inr ⟨e, hr⟩) .inr
      · obtain ⟨e', hg⟩ := h'.stuck e failed
        exact (onward h'.grows hg).elim (fun hr => ⟨e', hr⟩) id

variable {constant? : Expr → Option Value} {whole : Span} {allowed allowed' : Spot → Prop} {α : Type}

theorem replays_mono (more : ∀ p, allowed p → allowed' p) {v : OptionT Id α} {x y : OptionT Remembering α}
    (h : (replays constant? whole allowed).Agree v x y) : (replays constant? whole allowed').Agree v x y := by
  intro memory result next sound run
  have h := h memory result next sound run
  exact { h with elsewhere := fun p hp => h.elsewhere p fun ok => hp (more p ok) }

/-- Where there is no depth at all, a run ends at once, whatever it would follow. -/
theorem replays_tooDeep {v : α} {x y : Remembering α} (h : (replays constant? whole allowed).Rel v x y) :
    (replays constant? whole allowed).Rel v x Attempts.tooDeep := by
  intro memory result next sound run
  have h := h memory result next sound run
  exact { h with again := fun _ _ _ => .inr ⟨_, rfl⟩, stuck := fun _ _ => ⟨_, rfl⟩ }

theorem tooDeep_replays (v : α) :
    (replays constant? whole allowed).Rel v Attempts.tooDeep Attempts.tooDeep := by
  intro memory result next sound run
  cases run
  exact ⟨sound, fun _ _ h => h, fun _ _ => rfl, .inr ⟨_, rfl⟩, nofun, fun _ _ => ⟨_, rfl⟩⟩

theorem replays_inTraversals {v : α} {x y : Remembering α} (h : (replays constant? whole allowed).Rel v x y) :
    (replays constant? whole allowed).Rel v (Attempts.inTraversals x) (Attempts.inTraversals y) := by
  intro memory result next sound run
  rw [run_inTraversals] at run
  rcases hx : x.run.run memory with ⟨e | a, middle⟩
  · rw [hx] at run
    cases run
    have h := h memory _ _ sound hx
    obtain ⟨e', hy⟩ := h.stuck e rfl
    refine ⟨h.sound, h.grows, h.elsewhere, .inr ⟨_, rfl⟩, nofun, fun _ _ => ⟨.inTraversals, ?_⟩⟩
    rw [run_inTraversals, hy]
    rfl
  · rw [hx] at run
    cases run
    have h := h memory _ _ sound hx
    refine ⟨h.sound, h.grows, h.elsewhere, ?_, fun found later kept => ?_, nofun⟩
    · exact h.ends.imp_right fun ⟨e, failed⟩ => nomatch failed
    · rw [run_inTraversals]
      rcases h.again found later kept with hy | ⟨e, hy⟩
      · rw [hy]
        exact .inl rfl
      · rw [hy]
        exact .inr ⟨.inTraversals, rfl⟩

/-- A result is found again. A computation that ended at a bound did not come to remember its own spot, so
    it is begun again. -/
theorem replays_remembered {l : Level} {s : Span} (hs : s.Within whole) {x y : OptionT Remembering Expr}
    (h : (replays constant? whole (Spot.Below l s)).Agree (readSpan constant? l s) x y) :
    (replays constant? whole (Spot.UpTo l s)).Agree (readSpan constant? l s) (remembered l s x) (remembered l s y) := by
  intro memory result next sound run
  rcases hl : memory[s.spot l]? with _ | r
  · rw [remembered_computed hl, run_bind_remembering] at run
    rcases hx : x.run.run.run memory with ⟨e | a, middle⟩
    · rw [hx] at run
      cases run
      have h := h memory _ _ sound hx
      obtain ⟨e', hy⟩ := h.stuck e rfl
      have unknown : next[s.spot l]? = none := (h.elsewhere _ Spot.not_below_self).trans hl
      refine ⟨h.sound, h.grows, fun p hp => h.elsewhere p fun below => hp (.inr below), .inr ⟨e, rfl⟩, nofun,
        fun _ _ => ⟨e', ?_⟩⟩
      rw [remembered_computed unknown, run_bind_remembering, hy]
    · rw [hx] at run
      cases run
      have h := h memory _ _ sound hx
      obtain rfl : a = reading constant? l s.chars := by
        rcases h.ends with same | ⟨e, failed⟩
        · exact Except.ok.inj same
        · cases failed
      have other {p : Spot} (hp : p ≠ s.spot l) : (middle.insert (s.spot l) (reading constant? l s.chars))[p]? = middle[p]? := by
        rw [Std.HashMap.getElem?_insert, if_neg]
        simpa using hp.symm
      refine ⟨sound_insert h.sound hs, fun p r hr => ?_, fun p hp => ?_, .inl rfl, fun _ later kept => .inl ?_, nofun⟩
      · have hp : p ≠ s.spot l := by
          rintro rfl
          cases hl.symm.trans hr
        exact (other hp).trans (h.grows p r hr)
      · exact (other fun same => hp (.inl same)).trans (h.elsewhere p fun below => hp (.inr below))
      · exact remembered_found (kept _ _ Std.HashMap.getElem?_insert_self)
  · rw [remembered_found hl] at run
    cases run
    obtain rfl := sound l s r hs hl
    exact ⟨sound, fun _ _ h => h, fun _ _ => rfl, .inl rfl, fun _ later kept => .inl (remembered_found (kept _ _ hl)), nofun⟩

/-! ## Levels and traversals -/

variable (constant? whole) in
/-- By induction on the depth of the first run. One that follows it has no more. -/
theorem replays_level {depth depth' : Nat} (hd : depth' ≤ depth) :
    (∀ l s, s.Within whole → (replays constant? whole (Spot.UpTo l s)).Agree (readSpan constant? l s)
      (level constant? depth l s) (level constant? depth' l s)) ∧
    ∀ base s, s.Within whole → (replays constant? whole (Spot.Shorter s)).Agree (followSpan constant? base s)
      (follow constant? depth base s) (follow constant? depth' base s) := by
  induction depth generalizing depth' with
  | zero =>
    obtain rfl := Nat.le_zero.mp hd
    refine ⟨fun l s hs => ?_, fun base s hs => ?_⟩
    · by_cases h : s.chars = []
      · rw [readSpan_eq, level, if_pos h, if_pos h]
        exact agree_failure
      · rw [level, if_neg h]
        exact replays_remembered hs (tooDeep_replays _)
    · by_cases h : s.chars = []
      · rw [followSpan_eq, follow, if_pos h, if_pos h]
        exact agree_pure base
      · rw [follow, if_neg h]
        exact replays_inTraversals (tooDeep_replays _)
  | succ depth ih =>
    have rules (depth' : Nat) (hd : depth' ≤ depth) (l : Level) (s : Span) (hs : s.Within whole) :
        (replays constant? whole (Spot.Below l s)).Agree (rule (readSpan constant?) (followSpan constant?) l s)
          (rule (level constant? depth) (follow constant? depth) l s)
          (rule (level constant? depth') (follow constant? depth') l s) := by
      obtain ⟨levels, follows⟩ := ih hd
      refine agree_rule l (fun l' t ht => ?_) (fun operand => ?_) fun e t ht => ?_
      · exact replays_mono (fun p => Spot.below_of_inside ht) (levels l' t (ht.1.trans hs))
      · exact replays_mono (fun p => Spot.below_of_tighter operand) (levels l.tighter s hs)
      · exact replays_mono (fun p hp => .inl (Nat.lt_trans hp ht.2)) (follows e t (ht.1.trans hs))
    have steps (depth' : Nat) (hd : depth' ≤ depth) (base : Expr) (s : Span) (hs : s.Within whole) :
        (replays constant? whole (Spot.Shorter s)).Agree
          (traversal constant? (readSpan constant?) base s >>= fun x => followSpan constant? x.1 x.2)
          (traversal constant? (level constant? depth) base s >>= fun x => follow constant? depth x.1 x.2)
          (traversal constant? (level constant? depth') base s >>= fun x => follow constant? depth' x.1 x.2) := by
      obtain ⟨levels, follows⟩ := ih hd
      refine agree_bind (agree_traversal base (fun _ _ _ _ _ => ⟨rfl, rfl⟩) fun l t ht => ?_) fun x he => ?_
      · exact replays_mono (fun p => Spot.shorter_of_inside ht) (levels l t (ht.1.trans hs))
      · have inside := (traversal_rest base s _ he).2
        exact replays_mono (fun p hp => Nat.lt_trans hp inside.2) (follows x.1 x.2 (inside.1.trans hs))
    refine ⟨fun l s hs => ?_, fun base s hs => ?_⟩
    · by_cases h : s.chars = []
      · rw [readSpan_eq, if_pos h]
        cases depth' <;> simp only [level, if_pos h] <;> exact agree_failure
      · cases depth' with
        | zero =>
          simp only [level, if_neg h]
          refine replays_remembered hs (replays_tooDeep (y := (rule (level constant? 0) (follow constant? 0) l s).run) ?_)
          rw [readSpan_eq, if_neg h]
          exact rules 0 (Nat.zero_le _) l s hs
        | succ depth' =>
          simp only [level, if_neg h]
          refine replays_remembered hs ?_
          rw [readSpan_eq, if_neg h]
          exact rules depth' (Nat.le_of_succ_le_succ hd) l s hs
    · by_cases h : s.chars = []
      · rw [followSpan_eq, if_pos h]
        cases depth' <;> simp only [follow, if_pos h] <;> exact agree_pure base
      · rw [followSpan_eq, if_neg h]
        cases depth' with
        | zero =>
          simp only [follow, if_neg h]
          exact replays_inTraversals (replays_tooDeep (steps 0 (Nat.zero_le _) base s hs))
        | succ depth' =>
          simp only [follow, if_neg h]
          exact replays_inTraversals (steps depth' (Nat.le_of_succ_le_succ hd) base s hs)

/-- What a level found in a text that is not empty is remembered. -/
theorem remembered_keeps {l : Level} {s : Span} {y : OptionT Remembering Expr} {memory next : Memory} {r : Option Expr}
    (run : (remembered l s y).run.run.run memory = (.ok r, next)) : next[s.spot l]? = some r := by
  rcases hl : memory[s.spot l]? with _ | found
  · rw [remembered_computed hl, run_bind_remembering] at run
    rcases hy : y.run.run.run memory with ⟨e | a, middle⟩
    · rw [hy] at run
      cases run
    · rw [hy] at run
      cases run
      exact Std.HashMap.getElem?_insert_self
  · rw [remembered_found hl] at run
    cases run
    exact hl

theorem level_nonempty {s : Span} (h : s.chars ≠ []) (depth : Nat) (l : Level) :
    ∃ y, (level constant? depth l s : OptionT Remembering Expr) = remembered l s y := by
  cases depth <;> exact ⟨_, by rw [level, if_neg h]⟩

end Replays

/-! ## Runs -/

namespace Parser

/-- What the levels come to is what a run comes to. -/
theorem run_of_level {p : Parser} {result : Except Exhausted (Option Expr)} {next : Memory}
    (h : (level (constant? p.limits) (p.limits.parse - p.spent) .pipe ⟨0, p.text⟩ : OptionT Remembering Expr).run.run.run
      p.memory = (result, next)) :
    p.run.1 = p.outcome result ∧ p.run.2.memory = next := by
  unfold run
  dsimp only
  rw [h]
  exact ⟨rfl, rfl⟩

/-- A run that begins with the memory that another left ends as that one, and leaves the memory as it is. -/
theorem run_twice {p q : Parser} (sound : p.Sound) (text : q.text = p.text) (limits : q.limits = p.limits)
    (memory : q.memory = p.run.2.memory) (spent : p.spent ≤ q.spent) :
    q.run.1 = p.run.1 ∧ q.run.2.memory = q.memory := by
  let attempt (depth : Nat) : OptionT Remembering Expr := level (constant? p.limits) depth .pipe ⟨0, p.text⟩
  rcases hrun : (attempt (p.limits.parse - p.spent)).run.run.run p.memory with ⟨result, next⟩
  obtain ⟨first, left⟩ := run_of_level hrun
  have deep : p.limits.parse - q.spent ≤ p.limits.parse - p.spent := Nat.sub_le_sub_left spent _
  have replay := (replays_level (constant? p.limits) ⟨0, p.text⟩ deep).1 .pipe _ (.refl _) p.memory result next sound hrun
  have second : ∃ r, (attempt (p.limits.parse - q.spent)).run.run.run next = (r, next) ∧ p.outcome r = p.outcome result := by
    rcases replay.ends with rfl | ⟨e, rfl⟩
    · by_cases empty : p.text = []
      · refine ⟨.ok none, ?_, ?_⟩
        · cases p.limits.parse - q.spent <;> simp only [attempt, level, if_pos empty] <;> rfl
        · have none : reading (constant? p.limits) .pipe p.text = none := by
            rw [reading, if_pos empty]
          exact congrArg (fun r => p.outcome (.ok r)) none.symm
      · have remembers (depth : Nat) : ∃ x, attempt depth = remembered .pipe ⟨0, p.text⟩ x := level_nonempty empty depth .pipe
        obtain ⟨x, hx⟩ := remembers (p.limits.parse - p.spent)
        obtain ⟨y, hy⟩ := remembers (p.limits.parse - q.spent)
        rw [hx] at hrun
        refine ⟨_, ?_, rfl⟩
        rw [hy]
        exact remembered_found (remembered_keeps hrun)
    · obtain ⟨e', hr⟩ := replay.stuck e rfl
      exact ⟨.error e', hr, rfl⟩
  obtain ⟨r, hr, same⟩ := second
  have resumed : (level (constant? q.limits) (q.limits.parse - q.spent) .pipe ⟨0, q.text⟩ : OptionT Remembering Expr).run.run.run
      q.memory = (r, next) := by
    rw [limits, text, memory, left]
    exact hr
  obtain ⟨again, kept⟩ := run_of_level resumed
  rw [first, again, kept, memory, left]
  refine ⟨?_, rfl⟩
  rw [← same]
  cases r <;> simp only [outcome, limits, text]

/-- Every run of a parser ends as the first: with the same tree, or not matching, or at the same bound. -/
theorem run_again (text : List Char) (limits : Limits) (runs : Nat) :
    (after text limits runs).run.1 = (ofText text limits).run.1 := by
  have first : (ofText text limits).Sound := sound_ofText text limits
  -- From the second run on the memory is the one that the first left.
  have memory : ∀ runs, (after text limits (runs + 1)).memory = (ofText text limits).run.2.memory := by
    intro runs
    induction runs with
    | zero => rfl
    | succ runs ih =>
      obtain ⟨-, htext, hlimits⟩ := after_spec text limits (runs + 1)
      have again := run_twice (q := after text limits (runs + 1)) first htext hlimits ih (Nat.zero_le _)
      exact again.2.trans ih
  cases runs with
  | zero => rfl
  | succ runs =>
    obtain ⟨-, htext, hlimits⟩ := after_spec text limits (runs + 1)
    exact (run_twice first htext hlimits (memory runs) (Nat.zero_le _)).1

end Parser

end Groq.Query
