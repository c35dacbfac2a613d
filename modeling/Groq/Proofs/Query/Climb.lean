/-
  Groq.Proofs.Query.Climb — precedence climbing over a chain of operands.

  A chain is an operand and then operators, each with the operand behind it. `climb` reads one by the
  table of precedences in the usual way. `Derives` is the nesting by levels of the grammar.
  Proved: what the climber builds is derived (`climb_derives`), and it fails only where two
  comparisons meet with neither of the connectives that bind weaker between them (`climb_clash`);
  operators that are nested by levels never clash (`Fits.not_clash`).
-/

import Groq.Proofs.Query.Nesting

namespace Groq.Query

/-! ## The table -/

/-- Higher binds tighter. -/
def Connective.precedence : Connective → Nat
  | or => 1
  | and => 2
  | binary .equal | binary .notEqual | binary .less | binary .lessEqual | binary .greater | binary .greaterEqual
  | binary .isIn | binary .matchText => 3
  | binary .add | binary .subtract => 4
  | binary .multiply | binary .divide | binary .modulo => 5
  | binary .power => 6

def Connective.associativity (c : Connective) : Associativity :=
  if c.precedence = 6 then .right else if c.precedence = 3 then .neither else .left

/-- The lowest precedence that the right side of an operator takes in. -/
def Connective.rightMin (c : Connective) : Nat :=
  if c.associativity = .right then c.precedence else c.precedence + 1

/-! ## The climber -/

section Climber

variable {α : Type} (tree : α → Expr)

/-- Take in operators of at least a precedence, with what stands left of them; and what is left over. -/
def climb (min : Nat) (left : Expr) (rest : List (Connective × α)) :
    Option (Expr × { after : List (Connective × α) // after.length ≤ rest.length }) :=
  match rest with
  | [] => some (left, ⟨[], Nat.le_refl _⟩)
  | (op, operand) :: rest =>
    if op.precedence < min then some (left, ⟨(op, operand) :: rest, Nat.le_refl _⟩)
    else
      match climb op.rightMin (tree operand) rest with
      | none => none
      | some (right, ⟨after, shorter⟩) =>
        -- a second comparison does not associate with the first
        if op.associativity = .neither ∧ after.head?.any (·.1.precedence = op.precedence) then none
        else
          match climb min (op.apply left right) after with
          | none => none
          | some (e, ⟨last, shorter'⟩) => some (e, ⟨last, by simp only [List.length_cons]; omega⟩)
termination_by rest.length

/-- The tree of a whole chain. -/
def climbChain (first : α) (rest : List (Connective × α)) : Option Expr :=
  (climb tree 0 (tree first) rest).map (·.1)

end Climber

/-! ## What the climber takes in -/

theorem rightMin_ge (c : Connective) : c.precedence ≤ c.rightMin := by
  unfold Connective.rightMin
  split
  · exact Nat.le_refl _
  · exact Nat.le_succ _

theorem rightMin_le (c : Connective) : c.rightMin ≤ c.precedence + 1 := by
  unfold Connective.rightMin
  split
  · exact Nat.le_succ _
  · exact Nat.le_refl _

section Taken

variable {α : Type} {tree : α → Expr} {min : Nat} {left e : Expr} {rest : List (Connective × α)}

/-- It takes in a beginning of the chain, and stops before an operator that binds weaker. -/
theorem climb_taken {after : { after : List (Connective × α) // after.length ≤ rest.length }}
    (h : climb tree min left rest = some (e, after)) :
    ∃ taken, rest = taken ++ after.1 ∧ (∀ c ∈ taken, min ≤ c.1.precedence) ∧
      ∀ c ∈ after.1.head?, c.1.precedence < min := by
  fun_induction climb tree min left rest generalizing e with
  | case1 =>
    cases h
    exact ⟨[], rfl, nofun, nofun⟩
  | case2 min left op operand rest weaker =>
    cases h
    refine ⟨[], rfl, nofun, fun c hc => ?_⟩
    cases hc
    exact weaker
  | case3 => cases h
  | case4 => cases h
  | case5 => cases h
  | case6 min left op operand rest stronger right middle shorter hright meets e' last shorter' hlast ihRight ihLast =>
    cases h
    obtain ⟨taken, hrest, high, -⟩ := ihRight hright
    obtain ⟨taken', hmiddle, high', low⟩ := ihLast hlast
    dsimp only at hrest hmiddle
    refine ⟨(op, operand) :: taken ++ taken', by simp [hrest, hmiddle], fun c hc => ?_, low⟩
    rcases List.mem_append.mp hc with hc | hc
    · rcases List.mem_cons.mp hc with rfl | hc
      · exact Nat.le_of_not_lt stronger
      · have := high c hc
        have := rightMin_ge op
        omega
    · exact high' c hc

end Taken

/-! ## Nesting by levels -/

def Level.ofPrecedence : Nat → Level
  | 0 => .pipe
  | 1 => .or
  | 2 => .and
  | 3 => .comparison
  | 4 => .sum
  | 5 => .product
  | 6 => .power
  | _ => .operand

theorem rank_ofPrecedence_succ (k : Nat) :
    (Level.ofPrecedence (k + 1)).rank ≤ (Level.ofPrecedence k).tighter.rank := by
  match k with
  | 0 | 1 | 2 | 3 | 4 | 5 | 6 => decide
  | _ + 7 => exact Nat.zero_le _

theorem rank_ofPrecedence_le {j k : Nat} (h : j ≤ k) :
    (Level.ofPrecedence k).rank ≤ (Level.ofPrecedence j).rank := by
  induction h with
  | refl => exact Nat.le_refl _
  | step _ ih => exact Nat.le_trans (rank_ofPrecedence_succ _) (Nat.le_trans (Level.rank_tighter_le _) ih)

theorem level_ofPrecedence (c : Connective) : c.level = .ofPrecedence c.precedence := by
  rcases c with _ | _ | op
  · rfl
  · rfl
  · cases op <;> rfl

theorem precedence_lt (c : Connective) : c.precedence < 7 := by
  rcases c with _ | _ | op
  · decide
  · decide
  · cases op <;> decide

theorem infix_of_level (c : Connective) : ∃ r, c.level.infix? = some r ∧ r.associativity = c.associativity := by
  rcases c with _ | _ | op
  · exact ⟨_, rfl, rfl⟩
  · exact ⟨_, rfl, rfl⟩
  · cases op <;> exact ⟨_, rfl, rfl⟩

/-- A tree over a chain, nested by the levels of the grammar. -/
inductive Derives {α : Type} (tree : α → Expr) : Level → α → List (Connective × α) → Expr → Prop
  | operand (p : α) : Derives tree .operand p [] (tree p)
  | tighter {l : Level} {p : α} {rest : List (Connective × α)} {e : Expr} (operand : l ≠ .operand) :
      Derives tree l.tighter p rest e → Derives tree l p rest e
  | split {r : InfixRule} {p q : α} {c : Connective} {left right : List (Connective × α)} {x y : Expr} :
      c.level.infix? = some r → Derives tree (r.leftLevel c.level) p left x →
      Derives tree (r.rightLevel c.level) q right y → Derives tree c.level p (left ++ (c, q) :: right) (c.apply x y)

section Derivations

variable {α : Type} {tree : α → Expr} {min : Nat} {left e : Expr} {rest : List (Connective × α)}

theorem Derives.weaker {l l' : Level} {p : α} (h : Derives tree l p rest e) (hl : l.rank ≤ l'.rank) :
    Derives tree l' p rest e :=
  Level.weaken (P := fun l => Derives tree l p rest e) (fun _ operand h => .tighter operand h) h hl

/-- May an operator of this precedence follow what was built by one of precedence `k`? -/
def Follows (k : Nat) (c : Connective) : Prop := c.precedence < k ∨ c.precedence = k ∧ c.associativity = .left

/-- What stops the right side of an operator may follow that operator, if the two associate. -/
theorem follows_of_low {c d : Connective} (low : d.precedence < c.rightMin)
    (apart : c.associativity = .neither → d.precedence ≠ c.precedence) : Follows c.precedence d := by
  unfold Connective.rightMin at low
  by_cases same : d.precedence = c.precedence
  · have assoc : d.associativity = c.associativity := by
      unfold Connective.associativity
      rw [same]
    refine .inr ⟨same, assoc.trans ?_⟩
    rcases h : c.associativity
    · rfl
    · rw [if_pos h] at low
      omega
    · exact absurd same (apart h)
  · left
    split at low <;> omega

/-- A right side behind an operator that may follow. -/
theorem Derives.extend {k : Nat} {p q : α} {c : Connective} {before right : List (Connective × α)} {x y : Expr}
    (hleft : Derives tree (.ofPrecedence k) p before x) (follows : Follows k c)
    (hright : Derives tree (.ofPrecedence c.rightMin) q right y) :
    Derives tree (.ofPrecedence c.precedence) p (before ++ (c, q) :: right) (c.apply x y) := by
  obtain ⟨r, hr, ha⟩ := infix_of_level c
  have hlevel := level_ofPrecedence c
  rw [← hlevel]
  refine .split hr (hleft.weaker ?_) (hright.weaker ?_)
  · rw [leftLevel_eq, ha, hlevel]
    split
    · refine rank_ofPrecedence_le ?_
      rcases follows with h | ⟨h, -⟩ <;> omega
    · rename_i assoc
      refine Nat.le_trans (rank_ofPrecedence_le ?_) (rank_ofPrecedence_succ c.precedence)
      rcases follows with h | ⟨-, h⟩
      · exact h
      · exact absurd h assoc
  · rw [rightLevel_eq, ha, hlevel]
    unfold Connective.rightMin
    split
    · exact Nat.le_refl _
    · exact rank_ofPrecedence_succ c.precedence

/-- Where the operators that follow bind no tighter than the last one on the left, and bind weaker unless
    they associate to the left, what the climber builds is nested by levels. -/
theorem climb_derives {after : { after : List (Connective × α) // after.length ≤ rest.length }}
    (h : climb tree min left rest = some (e, after)) {p : α} {before : List (Connective × α)} {k : Nat}
    (hleft : Derives tree (.ofPrecedence k) p before left) (hk : min ≤ k)
    (follows : ∀ c ∈ rest.head?, Follows k c.1) :
    ∃ taken, rest = taken ++ after.1 ∧ Derives tree (.ofPrecedence min) p (before ++ taken) e := by
  fun_induction climb tree min left rest generalizing e p before k with
  | case1 =>
    cases h
    exact ⟨[], rfl, by simpa using hleft.weaker (rank_ofPrecedence_le hk)⟩
  | case2 min left op operand rest weaker =>
    cases h
    exact ⟨[], rfl, by simpa using hleft.weaker (rank_ofPrecedence_le hk)⟩
  | case3 => cases h
  | case4 => cases h
  | case5 => cases h
  | case6 min left op operand rest stronger right middle shorter hright meets e' last shorter' hlast ihRight ihLast =>
    cases h
    obtain ⟨-, -, -, low⟩ := climb_taken hright
    have atom : Derives tree (.ofPrecedence 7) operand [] (tree operand) := .operand operand
    have tight : op.rightMin ≤ 7 := Nat.le_trans (rightMin_le op) (precedence_lt op)
    obtain ⟨taken, hrest, hr⟩ := ihRight hright atom tight fun c _ => .inl (precedence_lt c.1)
    have next : ∀ c ∈ middle.head?, Follows op.precedence c.1 := by
      intro c hc
      have hlow := low c hc
      have apart : op.associativity = .neither → c.1.precedence ≠ op.precedence := by
        intro neither same
        refine meets ⟨neither, ?_⟩
        rw [Option.mem_def.mp hc]
        exact decide_eq_true same
      exact follows_of_low hlow apart
    obtain ⟨taken', hmiddle, he⟩ := ihLast hlast (hleft.extend (follows _ rfl) hr) (Nat.le_of_not_lt stronger) next
    dsimp only at hrest hmiddle
    exact ⟨(op, operand) :: taken ++ taken', by simp [hrest, hmiddle], by simpa using he⟩

end Derivations

/-! ## Comparisons that meet -/

def Connective.compares (c : Connective) : Bool := c.level = .comparison

/-- Two comparisons with neither `&&` nor `||` between them. -/
def Clash (ops : List Connective) : Prop :=
  ∃ before first between second after, ops = before ++ first :: (between ++ second :: after) ∧
    first.compares = true ∧ second.compares = true ∧ ∀ c ∈ between, c ≠ .or ∧ c ≠ .and

theorem Clash.append {ops : List Connective} (h : Clash ops) (more : List Connective) : Clash (more ++ ops) := by
  obtain ⟨before, first, between, second, after, rfl, hf, hs, hb⟩ := h
  exact ⟨more ++ before, first, between, second, after, by simp, hf, hs, hb⟩

section Failure

variable {α : Type} {tree : α → Expr} {min : Nat} {left : Expr} {rest : List (Connective × α)}

theorem compares_of_precedence {c : Connective} (h : c.precedence = 3) : c.compares = true := by
  simp [Connective.compares, level_ofPrecedence, h, Level.ofPrecedence]

theorem neither_iff {c : Connective} : c.associativity = .neither ↔ c.precedence = 3 := by
  unfold Connective.associativity
  split
  · simp [*]
  · split
    · simp [*]
    · simp [*]

/-- The climber fails only at comparisons that clash. -/
theorem climb_clash (h : climb tree min left rest = none) : Clash (rest.map (·.1)) := by
  fun_induction climb tree min left rest with
  | case1 => cases h
  | case2 => cases h
  | case3 min left op operand rest stronger hright ih => exact (ih hright).append [op]
  | case4 min left op operand rest stronger right middle shorter hright meets ih =>
    obtain ⟨neither, hmeets⟩ := meets
    obtain ⟨taken, hrest, high, -⟩ := climb_taken hright
    obtain ⟨c, hc, same⟩ := Option.any_eq_true _ _ |>.mp hmeets
    obtain ⟨tail, htail⟩ := List.head?_eq_some_iff.mp hc
    have three := neither_iff.mp neither
    have same : c.1.precedence = 3 := (of_decide_eq_true same).trans three
    dsimp only at hrest
    refine ⟨[], op, taken.map (·.1), c.1, tail.map (·.1), ?_, compares_of_precedence three,
      compares_of_precedence same, fun d hd => ?_⟩
    · rw [hrest, htail]
      simp
    · obtain ⟨e, he, rfl⟩ := List.mem_map.mp hd
      have hhigh := high e he
      rw [Connective.rightMin, if_neg (by rw [neither]; exact nofun), three] at hhigh
      refine ⟨?_, ?_⟩
      · intro h
        rw [h] at hhigh
        exact absurd hhigh (by decide)
      · intro h
        rw [h] at hhigh
        exact absurd hhigh (by decide)
  | case5 min left op operand rest stronger right middle shorter hright meets hlast ihRight ihLast =>
    obtain ⟨taken, hrest, -, -⟩ := climb_taken hright
    dsimp only at hrest
    rw [hrest]
    have := (ihLast hlast).append (op :: taken.map (·.1))
    simpa using this
  | case6 => cases h

end Failure

/-- A clash across an operator that binds weaker than comparisons is on one side of it. -/
theorem clash_sides {left right : List Connective} {c : Connective} (hc : c = .or ∨ c = .and)
    (h : Clash (left ++ c :: right)) : Clash left ∨ Clash right := by
  have plain : ¬ c.compares = true := by rcases hc with rfl | rfl <;> decide
  obtain ⟨before, first, between, second, after, e, hf, hs, hb⟩ := h
  rcases List.append_eq_append_iff.mp e with ⟨as, -, hright⟩ | ⟨as, rfl, hleft⟩
  · rcases as with _ | ⟨a, as⟩
    · obtain ⟨rfl, -⟩ := List.cons.inj hright
      exact absurd hf plain
    · exact .inr ⟨as, first, between, second, after, (List.cons.inj hright).2, hf, hs, hb⟩
  · rcases as with _ | ⟨a, as⟩
    · obtain ⟨rfl, -⟩ := List.cons.inj hleft
      exact absurd hf plain
    · obtain ⟨rfl, hrest⟩ := List.cons.inj hleft
      rcases List.append_eq_append_iff.mp hrest with ⟨bs, rfl, hafter⟩ | ⟨bs, rfl, hbetween⟩
      · rcases bs with _ | ⟨b, bs⟩
        · obtain ⟨rfl, -⟩ := List.cons.inj hafter
          exact absurd hs plain
        · obtain ⟨rfl, -⟩ := List.cons.inj hafter
          exact .inl ⟨before, first, between, second, bs, rfl, hf, hs, hb⟩
      · rcases bs with _ | ⟨b, bs⟩
        · obtain ⟨rfl, -⟩ := List.cons.inj hbetween
          exact absurd hs plain
        · obtain ⟨rfl, -⟩ := List.cons.inj hbetween
          have hboth := hb c (by simp)
          rcases hc with rfl | rfl
          · exact absurd rfl hboth.1
          · exact absurd rfl hboth.2

theorem Clash.countP {ops : List Connective} (h : Clash ops) : 2 ≤ ops.countP Connective.compares := by
  obtain ⟨before, first, between, second, after, rfl, hf, hs, -⟩ := h
  simp only [List.countP_append, List.countP_cons, hf, hs, if_true]
  omega

/-- The sides of an operator that binds at least as tight as comparisons are tighter than those. -/
theorem sides_of_comparison {l : Level} {r : InfixRule} {c : Connective} (hr : l.infix? = some r) (hc : c.level = l)
    (weak : ¬ (c = .or ∨ c = .and)) :
    (r.leftLevel l).rank < Level.comparison.rank ∧ (r.rightLevel l).rank < Level.comparison.rank := by
  subst hc
  rcases c with _ | _ | op
  · exact absurd (.inl rfl) weak
  · exact absurd (.inr rfl) weak
  · cases op <;> cases hr <;> decide

theorem Fits.no_comparison {l : Level} {ops : List (Nat × Operator)} (h : Fits l ops)
    (hl : l.rank < Level.comparison.rank) {cs : List Connective} (hcs : ops.map (·.2) = cs.map Operator.connective) :
    cs.countP Connective.compares = 0 := by
  refine List.countP_eq_zero.mpr fun c hc compares => ?_
  have hmem : Operator.connective c ∈ ops.map (·.2) := by
    rw [hcs]
    exact List.mem_map_of_mem hc
  obtain ⟨o, ho, hoc⟩ := List.mem_map.mp hmem
  have hrank := h.rank_le o ho
  have hlevel : o.2.level = .comparison := by
    rw [hoc]
    exact of_decide_eq_true compares
  rw [hlevel] at hrank
  omega

/-- Operators nested by the levels of the grammar do not clash. -/
theorem Fits.not_clash {l : Level} {ops : List (Nat × Operator)} (h : Fits l ops) :
    ∀ cs : List Connective, ops.map (·.2) = cs.map Operator.connective → ¬ Clash cs := by
  induction h with
  | none =>
    rintro cs hcs clash
    have hnil : cs = [] := by simpa using hcs.symm
    subst hnil
    exact absurd clash.countP (by decide)
  | tighter _ ih => exact ih
  | pipe _ _ =>
    intro cs hcs
    rw [List.map_append] at hcs
    obtain ⟨csl, tail, -, -, htail⟩ := List.append_eq_map_iff.mp hcs
    obtain ⟨c, rest, -, hc, -⟩ := List.map_eq_cons_iff.mp htail
    cases hc
  | @split l r left right offset c hr hc hleft hright ihl ihr =>
    intro cs hcs clash
    rw [List.map_append] at hcs
    obtain ⟨csl, tail, rfl, hl, htail⟩ := List.append_eq_map_iff.mp hcs
    obtain ⟨d, csr, rfl, hd, hcsr⟩ := List.map_eq_cons_iff.mp htail
    cases hd
    by_cases weak : c = .or ∨ c = .and
    · rcases clash_sides weak clash with h | h
      · exact ihl csl hl.symm h
      · exact ihr csr hcsr.symm h
    · -- neither side has comparisons, so one at most is left
      have sides := sides_of_comparison hr hc weak
      have count := clash.countP
      rw [List.countP_append, List.countP_cons, hleft.no_comparison sides.1 hl.symm,
        hright.no_comparison sides.2 hcsr.symm] at count
      split at count <;> omega

/-! ## Whole chains -/

section Chains

variable {α : Type} {tree : α → Expr} {first : α} {rest : List (Connective × α)} {e : Expr}

theorem climbChain_derives (h : climbChain tree first rest = some e) : Derives tree .pipe first rest e := by
  obtain ⟨⟨e', after⟩, hclimb, rfl⟩ := Option.map_eq_some_iff.mp h
  have atom : Derives tree (.ofPrecedence 7) first [] (tree first) := .operand first
  obtain ⟨-, -, -, low⟩ := climb_taken hclimb
  obtain ⟨taken, hrest, he⟩ := climb_derives hclimb atom (Nat.zero_le _) fun c _ => .inl (precedence_lt c.1)
  have none : after.1 = [] := by
    rcases hafter : after.1 with _ | ⟨c, tail⟩
    · rfl
    · exact absurd (low c (by rw [hafter]; rfl)) (Nat.not_lt_zero _)
  rw [none, List.append_nil] at hrest
  show Derives tree .pipe first rest e'
  rw [hrest]
  exact he

theorem climbChain_clash (h : climbChain tree first rest = none) : Clash (rest.map (·.1)) :=
  climb_clash (Option.map_eq_none_iff.mp h)

end Chains

end Groq.Query
