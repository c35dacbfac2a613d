/-
  Groq.Proofs.Query.Signs — a bound on depth that bounds no tree.

  What is found in the memory costs no depth, however high its tree is. In a text of minus signs before
  a name the level of sums tries the signs as operators, from the last to the first. The right side of
  a try is that of the try before with one sign more: that sign is a new node, and what is behind it is
  remembered. The left side is signs alone, which are no operand, and are found to be none in the same way.
  A run is described by the spots it finds known and those it leaves known (`Finds`); nothing known is
  lost. The invariant is that entries are right, and that what a level passed on to the next tighter one is
  known there too (`Memory.Signed`): so one known spot says that the spots below it are.
  Proved: any number of signs parses under every bound of at least 10 (`parse_signs`). So no such bound
  bounds the height of trees; the length of the normal form does (`tree_height`).
-/

import Groq.Proofs.Query.Height
import Groq.Proofs.Query.Writing
import Groq.Proofs.Query.Composition

namespace Groq.Query

/-! ## Runs that come to a result -/

def Memory.Knows (memory : Memory) (spots : List Spot) : Prop := ∀ p ∈ spots, p ∈ memory

/-- From a memory that knows the spots of `known`, the run comes to this result; the invariant holds
    again, nothing known is lost, and the spots of `found` are known. -/
def Finds {α : Type} (invariant : Memory → Prop) (known : List Spot) (y : OptionT Remembering α) (v : Option α)
    (found : List Spot) : Prop :=
  ∀ memory, invariant memory → memory.Knows known → ∃ next, y.run.run.run memory = (.ok v, next) ∧
    invariant next ∧ (∀ p ∈ memory, p ∈ next) ∧ next.Knows found

section Finds

variable {α β : Type} {I : Memory → Prop} {known found further : List Spot} {v w : Option α}

theorem finds_pure (a : α) : Finds I known (pure a) (some a) known :=
  fun memory inv knows => ⟨memory, rfl, inv, fun _ h => h, knows⟩

theorem finds_failure : Finds I known (failure : OptionT Remembering α) none known :=
  fun memory inv knows => ⟨memory, rfl, inv, fun _ h => h, knows⟩

theorem finds_mono {y : OptionT Remembering α} {known' found' : List Spot} (h : Finds I known y v found)
    (more : known ⊆ known') (less : found' ⊆ found ++ known') : Finds I known' y v found' := by
  intro memory inv knows
  obtain ⟨next, run, inv', grows, finds⟩ := h memory inv fun p hp => knows p (more hp)
  refine ⟨next, run, inv', grows, fun p hp => ?_⟩
  rcases List.mem_append.mp (less hp) with hp | hp
  · exact finds p hp
  · exact grows p (knows p hp)

theorem finds_bind {y : OptionT Remembering α} {f : α → OptionT Remembering β} {a : α} {w : Option β}
    (first : Finds I known y (some a) found) (next : Finds I found (f a) w further) :
    Finds I known (y >>= f) w further := by
  intro memory inv knows
  obtain ⟨middle, run, inv, grows, finds⟩ := first memory inv knows
  obtain ⟨last, run', inv, grows', finds'⟩ := next middle inv finds
  refine ⟨last, ?_, inv, fun p hp => grows' p (grows p hp), finds'⟩
  rw [run_bind_optional, run]
  exact run'

theorem finds_bind_none {y : OptionT Remembering α} {f : α → OptionT Remembering β} (first : Finds I known y none found) :
    Finds I known (y >>= f) none found := by
  intro memory inv knows
  obtain ⟨middle, run, rest⟩ := first memory inv knows
  refine ⟨middle, ?_, rest⟩
  rw [run_bind_optional, run]

theorem finds_map {y : OptionT Remembering α} (f : α → β) (h : Finds I known y v found) :
    Finds I known (f <$> y) (v.map f) found := by
  rw [← bind_pure_comp]
  cases v with
  | none => exact finds_bind_none h
  | some a => exact finds_bind h (finds_pure (f a))

theorem finds_orElse {y z : OptionT Remembering α} (first : Finds I known y none found)
    (second : Finds I found z v further) : Finds I known (y <|> z) v further := by
  intro memory inv knows
  obtain ⟨middle, run, inv, grows, finds⟩ := first memory inv knows
  obtain ⟨last, run', inv, grows', finds'⟩ := second middle inv finds
  refine ⟨last, ?_, inv, fun p hp => grows' p (grows p hp), finds'⟩
  rw [run_orElse_optional, run]
  exact run'

theorem finds_orElse_some {y z : OptionT Remembering α} {a : α} (first : Finds I known y (some a) found) :
    Finds I known (y <|> z) (some a) found := by
  intro memory inv knows
  obtain ⟨middle, run, rest⟩ := first memory inv knows
  refine ⟨middle, ?_, rest⟩
  rw [run_orElse_optional, run]

end Finds

/-! ## Signs -/

/-- A name behind so many minus signs. -/
def signs (n : Nat) : List Char := List.replicate n '-' ++ ['x']

def negated : Nat → Expr
  | 0 => .ownField "x"
  | n + 1 => .neg (negated n)

theorem negate_negated (n : Nat) : (negated n).negate = negated (n + 1) := by
  cases n <;> rfl

theorem height_negated (n : Nat) : (negated n).height = n + 1 := by
  induction n with
  | zero => rfl
  | succ n ih =>
    rw [negated, Expr.height_eq]
    simp [Expr.parts, Expr.greatest, ih]

/-- The stretches of `signs n`: minus signs, and minus signs before the name. -/
def minuses (start count : Nat) : Span := ⟨start, List.replicate count '-'⟩

def signed (n count : Nat) : Span := ⟨n - count, signs count⟩

theorem minuses_tail (start count first : Nat) : (minuses start count).tail first = minuses (start + first) (count - first) := by
  simp [minuses, Span.tail]

theorem signed_tail {n count first : Nat} (h : first ≤ count) (hn : count ≤ n) :
    (signed n count).tail first = signed n (count - first) := by
  have start : n - count + first = n - (count - first) := by omega
  have chars : (signs count).drop first = signs (count - first) := by
    unfold signs
    rw [List.drop_append_of_le_length (by simpa using h), List.drop_replicate]
  simp only [signed, Span.tail, start, chars]

theorem signed_tail_one {n count : Nat} (h : count + 1 ≤ n) : (signed n (count + 1)).tail 1 = signed n count :=
  signed_tail (Nat.succ_le_succ (Nat.zero_le count)) h

theorem signed_slice {n count last : Nat} (h : last ≤ count) :
    (signed n count).slice 0 last = minuses (n - count) last := by
  have chars : (signs count).take last = List.replicate last '-' := by
    unfold signs
    rw [List.take_append_of_le_length (by simpa using h), List.take_replicate, Nat.min_eq_left h]
  simp [signed, minuses, Span.slice, chars]

theorem signed_length (n count : Nat) : (signed n count).chars.length = count + 1 := by
  simp [signed, signs]

/-- So many minus signs, and the name behind them or nothing. -/
def OfSigns (count : Nat) (cs : List Char) : Prop := cs = List.replicate count '-' ∨ cs = signs count

theorem ofSigns_minuses (start count : Nat) : OfSigns count (minuses start count).chars := .inl rfl

theorem ofSigns_signed (n count : Nat) : OfSigns count (signed n count).chars := .inr rfl

/-! ## The surface -/

section Surface

variable {count : Nat} {cs : List Char} {l : Level}

/-- The places of the minus signs. -/
theorem surface_minuses (offset : Nat) (before : Option Char) (h : OfSigns count cs) :
    ∃ places, surfaceFrom Scan.start offset before cs = some places ∧
      (places.filterMap fun p => (sumAt? p).map (p, ·)).map (fun c => (c.1.offset, c.2)) =
        (List.range' offset count).map (·, ⟨.binary .subtract, 1⟩) := by
  induction count generalizing offset before cs with
  | zero =>
    rcases h with rfl | rfl
    · exact ⟨[], rfl, rfl⟩
    · exact ⟨[⟨offset, before, ['x']⟩], rfl, rfl⟩
  | succ count ih =>
    obtain ⟨rest, rfl, hr⟩ : ∃ rest, cs = '-' :: rest ∧ OfSigns count rest := by
      rcases h with rfl | rfl
      · exact ⟨_, rfl, .inl rfl⟩
      · exact ⟨_, rfl, .inr rfl⟩
    obtain ⟨places, hp, hs⟩ := ih (offset + 1) (some '-') hr
    refine ⟨⟨offset, before, '-' :: rest⟩ :: places, ?_, ?_⟩
    · rw [surfaceFrom_plain (by decide), hp]
      rfl
    · have sign : sumAt? ⟨offset, before, '-' :: rest⟩ = some ⟨.binary .subtract, 1⟩ := by
        rcases hr with rfl | rfl <;> cases count <;> rfl
      simp only [List.filterMap_cons, sign, Option.map_some, List.map_cons, hs, List.range'_succ]

/-- There is no operator but minus. -/
theorem splitPoints_none (hs : OfSigns count cs) {places : List Place} (h : surface? cs = some places)
    (sum : l ≠ .sum) : l.splitPoints places = [] := by
  refine List.eq_nil_iff_forall_not_mem.mpr fun a ha => ?_
  have first {p : Place} (hp : p ∈ places) : ∃ c rest, p.rest = c :: rest ∧ (c = '-' ∨ c = 'x') := by
    obtain ⟨pre, hcs, -, ne⟩ := surfaceFrom_place h p hp
    obtain ⟨c, rest, hc⟩ := List.exists_cons_of_ne_nil ne
    have mem : c ∈ cs := by simp [hcs, hc]
    refine ⟨c, rest, hc, ?_⟩
    rcases hs with rfl | rfl
    · exact .inl (List.eq_of_mem_replicate mem)
    · exact (List.mem_append.mp mem).imp List.eq_of_mem_replicate List.mem_singleton.mp
  rcases mem_splitPoints ha with ⟨p, -, -, hp, pipe⟩ | ⟨r, p, found, -, hr, hp, hfound⟩
  · obtain ⟨c, rest, hc, rfl | rfl⟩ := first hp <;> simp [isPipe, Place.startsWith, hc] at pipe
  · obtain ⟨c, rest, hc, hd⟩ := first hp
    cases l <;> simp only [Level.infix?, Option.some.injEq, reduceCtorEq] at hr
    case sum => exact sum rfl
    all_goals subst hr
    all_goals rcases hd with rfl | rfl
    all_goals simp [orAt?, andAt?, comparisonAt?, productAt?, powerAt?, Place.startsWith, hc] at hfound

variable {m : Type → Type} [Monad m] [LawfulMonad m] (parse : Parse m) (walk : Follow m) {s : Span}

theorem rule_none (hs : OfSigns count s.chars) (sum : l ≠ .sum) (sign : l ≠ .sign) (operand : l ≠ .operand) :
    rule parse walk l s = parse l.tighter s := by
  obtain ⟨places, h, -⟩ := surface_minuses 0 none hs
  exact rule_unsplit parse walk sign operand h (splitPoints_none hs h sum)

/-- Try the minus sign at an offset. The right side comes first. -/
def tryMinus (s : Span) (offset : Nat) : OptionT m Expr := do
  let right ← parse .product (s.tail (offset + 1))
  let left ← parse .sum (s.slice 0 offset)
  return .binary .subtract left right

theorem rule_sum (hs : OfSigns count s.chars) : rule parse walk .sum s =
    (firstSuccess (tryMinus parse s) (List.range count).reverse <|> parse .product s) := by
  obtain ⟨places, hp, offsets⟩ := surface_minuses 0 none hs
  have hp : surface? s.chars = some places := hp
  have split : firstSuccess (SplitPoint.attempt parse walk .sum s) (Level.sum.splitPoints places) =
      firstSuccess (tryMinus parse s) (List.range count).reverse := by
    let try_ (c : Nat × Found) : OptionT m Expr := do
      let right ← parse .product (s.tail (c.1 + c.2.length))
      let left ← parse .sum (s.slice 0 c.1)
      return c.2.connective.apply left right
    have candidates : Level.sum.splitPoints places =
        ((places.filterMap fun p => (sumAt? p).map (p, ·)).reverse).map
          fun c : Place × Found => SplitPoint.operator ⟨sumAt?, .left⟩ c.1 c.2 := rfl
    rw [candidates, firstSuccess_map]
    show firstSuccess (fun c : Place × Found => try_ (c.1.offset, c.2)) _ = _
    rw [← firstSuccess_map try_, List.map_reverse, offsets, ← List.map_reverse, firstSuccess_map, List.range_eq_range']
    rfl
  rw [rule_splits parse walk (l := .sum) (by decide) (by decide), hp]
  refine OptionT.ext ?_
  simp [require, split, Level.tighter, OptionT.run_bind]

end Surface

/-! ## The memory of a text of signs -/

/-- What a stretch of `signs n` is: minus signs alone are nothing. -/
def treeAt (n start length : Nat) : Option Expr := if start + length ≤ n then none else some (negated (n - start))

/-- What is remembered of `signs n` is right, and what a level passed on to the next tighter one is
    remembered there too. Signs do not pass on what they are part of. -/
structure Memory.Signed (n : Nat) (memory : Memory) : Prop where
  right : ∀ (p : Spot) r, memory[p]? = some r → r = treeAt n p.start p.length
  passed : ∀ p ∈ memory, p.level ≠ .operand → (p.level = .sign → p.start + p.length ≤ n) →
    (⟨p.level.tighter, p.start, p.length⟩ : Spot) ∈ memory

theorem signed_empty (n : Nat) : Memory.Signed n ∅ where
  right p r h := by simp at h
  passed p h := by simp at h

theorem signed_insert {n : Nat} {memory : Memory} (h : memory.Signed n) (p : Spot)
    (passed : p.level ≠ .operand → (p.level = .sign → p.start + p.length ≤ n) →
      (⟨p.level.tighter, p.start, p.length⟩ : Spot) ∈ memory) :
    Memory.Signed n (memory.insert p (treeAt n p.start p.length)) where
  right q r hq := by
    rw [Std.HashMap.getElem?_insert] at hq
    split at hq
    · rename_i same
      cases eq_of_beq same
      cases hq
      rfl
    · exact h.right q r hq
  passed q hq operand sign := by
    refine Std.HashMap.mem_insert.mpr (.inr ?_)
    rcases Std.HashMap.mem_insert.mp hq with same | hq
    · cases eq_of_beq same
      exact passed operand sign
    · exact h.passed q hq operand sign

section Levels

variable {constant? : Expr → Option Value} {n depth : Nat} {l : Level} {s : Span} {known found : List Spot}

/-! ## Levels -/

theorem finds_empty (hs : s.chars = []) : Finds (Memory.Signed n) known (level constant? depth l s) none known := by
  cases depth <;> simp only [level, if_pos hs] <;> exact finds_failure

/-- What is remembered takes no depth. -/
theorem finds_known (hs : s.chars ≠ []) (h : ∀ memory : Memory, memory.Signed n → memory.Knows known → s.spot l ∈ memory) :
    Finds (Memory.Signed n) known (level constant? depth l s) (treeAt n s.start s.chars.length) [s.spot l] := by
  intro memory inv knows
  have hit := h memory inv knows
  have value : memory[s.spot l]? = some (treeAt n s.start s.chars.length) := by
    obtain ⟨r, hr⟩ := Option.isSome_iff_exists.mp (Std.HashMap.isSome_getElem?_iff_mem.mpr hit)
    rw [hr, inv.right _ r hr]
    rfl
  refine ⟨memory, ?_, inv, fun p hp => hp, fun p hp => by rwa [List.mem_singleton.mp hp]⟩
  cases depth <;> simp only [level, if_neg hs] <;> exact remembered_found value

/-- What is not remembered is computed by the rule of the level, and then is. -/
theorem finds_level (found : List Spot) (hs : s.chars ≠ [])
    (h : Finds (Memory.Signed n) known (rule (level constant? depth) (follow constant? depth) l s)
      (treeAt n s.start s.chars.length) found)
    (passed : l ≠ .operand → (l = .sign → s.start + s.chars.length ≤ n) → s.spot l.tighter ∈ found) :
    Finds (Memory.Signed n) known (level constant? (depth + 1) l s) (treeAt n s.start s.chars.length) [s.spot l] := by
  intro memory inv knows
  rcases hl : memory[s.spot l]? with _ | r
  · obtain ⟨next, run, inv', grows, finds⟩ := h memory inv knows
    refine ⟨next.insert (s.spot l) (treeAt n s.start s.chars.length), ?_, ?_, ?_, ?_⟩
    · simp only [level, if_neg hs]
      rw [remembered_computed hl, run_bind_remembering, run]
      rfl
    · exact signed_insert inv' (s.spot l) fun operand sign => finds _ (passed operand sign)
    · exact fun p hp => Std.HashMap.mem_insert.mpr (.inr (grows p hp))
    · intro p hp
      rw [List.mem_singleton.mp hp]
      exact Std.HashMap.mem_insert_self
  · have hit : s.spot l ∈ memory := Std.HashMap.isSome_getElem?_iff_mem.mp (by simp [hl])
    have remembered : Finds (Memory.Signed n) [s.spot l] (level constant? (depth + 1) l s) _ _ :=
      finds_known hs fun _ _ knows => knows _ List.mem_cons_self
    exact remembered memory inv fun p hp => by rwa [List.mem_singleton.mp hp]

/-- A level without split points finds what the next tighter one does. -/
theorem finds_passing {count : Nat} (ne : s.chars ≠ []) (hs : OfSigns count s.chars) (sum : l ≠ .sum) (sign : l ≠ .sign)
    (operand : l ≠ .operand)
    (h : Finds (Memory.Signed n) known (level constant? depth l.tighter s) (treeAt n s.start s.chars.length)
      [s.spot l.tighter]) :
    Finds (Memory.Signed n) known (level constant? (depth + 1) l s) (treeAt n s.start s.chars.length) [s.spot l] := by
  refine finds_level [s.spot l.tighter] ne ?_ fun _ _ => List.mem_singleton.mpr rfl
  rw [rule_none _ _ hs sum sign operand]
  exact h

/-- A stretch the level of products has seen; an empty one needs not be. -/
def seen (s : Span) : List Spot := if s.chars = [] then [] else [s.spot .product]

theorem finds_seen {y : OptionT Remembering Expr} {v : Option Expr}
    (h : Finds (Memory.Signed n) known y v [s.spot .product]) : Finds (Memory.Signed n) known y v (seen s) := by
  refine finds_mono h (List.Subset.refl known) fun p hp => ?_
  unfold seen at hp
  split at hp
  · cases hp
  · exact List.mem_append_left _ hp

/-! ## Minus signs alone -/

section Minuses

variable {start count : Nat}
variable (constant? depth)

theorem treeAt_minuses (h : start + count ≤ n) : treeAt n (minuses start count).start (minuses start count).chars.length =
    none := by
  simp [treeAt, minuses, h]

theorem minuses_ne_nil : (minuses start (count + 1)).chars ≠ [] := nofun

/-- What products have seen, signs, powers and operands have. -/
theorem finds_minuses_seen (h : start + count ≤ n) (hl : l = .product ∨ l = .sign ∨ l = .operand) :
    Finds (Memory.Signed n) (seen (minuses start count)) (level constant? depth l (minuses start count)) none
      (seen (minuses start count)) := by
  rcases count with _ | count
  · exact finds_empty rfl
  · have remembered : Finds (Memory.Signed n) (seen (minuses start (count + 1)))
        (level constant? depth l (minuses start (count + 1))) _ _ := finds_known minuses_ne_nil fun memory inv knows => by
      have inside : start + (minuses start (count + 1)).chars.length ≤ n := by simpa [minuses] using h
      have product := knows ((minuses start (count + 1)).spot .product) (by simp [seen, minuses_ne_nil])
      have sign := inv.passed _ product nofun nofun
      have power := inv.passed _ sign nofun fun _ => inside
      have operand := inv.passed _ power nofun nofun
      rcases hl with rfl | rfl | rfl
      · exact product
      · exact sign
      · exact operand
    rw [treeAt_minuses h] at remembered
    exact finds_mono remembered (List.Subset.refl _) (List.subset_append_right _ _)

theorem finds_minuses_operand (h : start + (count + 1) ≤ n) :
    Finds (Memory.Signed n) (seen (minuses (start + 1) count)) (level constant? (depth + 1) .operand (minuses start (count + 1)))
      none [(minuses start (count + 1)).spot .operand] := by
  rw [← treeAt_minuses h]
  refine finds_level (seen (minuses (start + 1) count)) minuses_ne_nil ?_ fun operand => absurd rfl operand
  rw [treeAt_minuses h]
  show Finds _ _ (Expr.negate <$> level constant? depth .operand ((minuses start (count + 1)).tail 1)) _ _
  rw [minuses_tail]
  exact finds_map (v := none) Expr.negate (finds_minuses_seen constant? depth (by omega) (.inr (.inr rfl)))

theorem finds_minuses_power (h : start + (count + 1) ≤ n) :
    Finds (Memory.Signed n) (seen (minuses (start + 1) count)) (level constant? (depth + 2) .power (minuses start (count + 1)))
      none [(minuses start (count + 1)).spot .power] := by
  have operand := finds_minuses_operand constant? depth h
  rw [← treeAt_minuses h] at operand ⊢
  exact finds_passing minuses_ne_nil (ofSigns_minuses _ _) nofun nofun nofun operand

theorem finds_minuses_sign (h : start + (count + 1) ≤ n) :
    Finds (Memory.Signed n) (seen (minuses (start + 1) count)) (level constant? (depth + 3) .sign (minuses start (count + 1)))
      none [(minuses start (count + 1)).spot .sign] := by
  rw [← treeAt_minuses h]
  refine finds_level [(minuses start (count + 1)).spot .power] minuses_ne_nil ?_ fun _ _ => List.mem_cons_self
  rw [treeAt_minuses h]
  show Finds _ _ (Expr.negate <$> level constant? (depth + 2) .sign ((minuses start (count + 1)).tail 1) <|>
    level constant? (depth + 2) .power (minuses start (count + 1))) _ _
  rw [minuses_tail]
  have shorter : start + 1 + count ≤ n := by omega
  have behind := finds_minuses_seen constant? (depth + 2) shorter (.inr (.inl rfl))
  exact finds_orElse (finds_map (v := none) Expr.negate behind) (finds_minuses_power constant? depth h)

theorem finds_minuses_product (h : start + count ≤ n) :
    Finds (Memory.Signed n) (seen ((minuses start count).tail 1)) (level constant? (depth + 4) .product (minuses start count))
      none (seen (minuses start count)) := by
  rcases count with _ | count
  · exact finds_empty rfl
  · rw [minuses_tail]
    refine finds_seen ?_
    have sign := finds_minuses_sign constant? depth h
    rw [← treeAt_minuses h] at sign ⊢
    exact finds_passing minuses_ne_nil (ofSigns_minuses _ _) nofun nofun nofun sign

end Minuses

/-! ## Split points from the right -/

/-- If every try fails and leaves its right side seen, given the right side of the try before, then all fail. -/
theorem finds_no_split {parse : Parse Remembering} {count : Nat}
    (tries : ∀ p < count, Finds (Memory.Signed n) (seen (s.tail (p + 2))) (tryMinus parse s p) none (seen (s.tail (p + 1)))) :
    Finds (Memory.Signed n) (seen (s.tail (count + 1))) (firstSuccess (tryMinus parse s) (List.range count).reverse) none
      (seen (s.tail 1)) := by
  induction count with
  | zero => exact finds_failure
  | succ count ih =>
    rw [List.range_succ, List.reverse_append]
    exact finds_orElse (tries count (Nat.lt_succ_self count)) (ih fun p hp => tries p (Nat.lt_succ_of_lt hp))

variable (constant? depth) in
theorem finds_minuses_sum {start count : Nat} (h : start + count ≤ n) :
    Finds (Memory.Signed n) [] (level constant? (depth + 5) .sum (minuses start count)) none [] := by
  rcases count with _ | count
  · exact finds_empty rfl
  have tries : ∀ p < count + 1, Finds (Memory.Signed n) (seen ((minuses start (count + 1)).tail (p + 2)))
      (tryMinus (level constant? (depth + 4)) (minuses start (count + 1)) p) none
      (seen ((minuses start (count + 1)).tail (p + 1))) := by
    intro p hp
    refine finds_bind_none ?_
    have inside : start + (p + 1) + (count + 1 - (p + 1)) ≤ n := by omega
    have right := finds_minuses_product constant? depth inside
    rwa [← minuses_tail, Span.tail_tail] at right
  have splits := finds_no_split tries
  have nothing : seen ((minuses start (count + 1)).tail (count + 1 + 1)) = [] := by simp [seen, minuses, Span.tail]
  rw [nothing] at splits
  have computed : Finds (Memory.Signed n) []
      (rule (level constant? (depth + 4)) (follow constant? (depth + 4)) .sum (minuses start (count + 1))) none
      [(minuses start (count + 1)).spot .product] := by
    rw [rule_sum _ _ (ofSigns_minuses _ _)]
    exact finds_orElse splits (finds_minuses_product constant? depth h)
  rw [← treeAt_minuses h] at computed
  have whole := finds_level _ minuses_ne_nil computed fun _ _ => List.mem_cons_self
  rw [treeAt_minuses h] at whole
  exact finds_mono whole (List.Subset.refl _) (List.nil_subset _)

/-! ## Minus signs before the name -/

section Signed

variable {count : Nat}
variable (constant? depth)

theorem treeAt_signed (h : count ≤ n) : treeAt n (signed n count).start (signed n count).chars.length =
    some (negated count) := by
  have past : ¬ n - count + (count + 1) ≤ n := by omega
  have before : n - (n - count) = count := by omega
  simp only [treeAt, signed_length]
  simp only [signed, past, before, if_false]

theorem signed_ne_nil : (signed n count).chars ≠ [] := by
  simp [signed, signs]

variable (n) in
theorem finds_name_operand : Finds (Memory.Signed n) [] (level constant? (depth + 1) .operand (signed n 0))
    (some (negated 0)) [(signed n 0).spot .operand] := by
  rw [← treeAt_signed (Nat.zero_le n)]
  refine finds_level [] signed_ne_nil ?_ fun operand => absurd rfl operand
  rw [treeAt_signed (Nat.zero_le n)]
  show Finds _ _ (pure (Expr.ownField "x", ⟨n + 1, []⟩) >>= fun x => follow constant? depth x.1 x.2) _ _
  refine finds_bind (finds_pure _) ?_
  cases depth <;> simp only [follow] <;> exact finds_pure _

variable (n) in
theorem finds_name_product : Finds (Memory.Signed n) [] (level constant? (depth + 4) .product (signed n 0))
    (some (negated 0)) [(signed n 0).spot .product] := by
  have operand := finds_name_operand constant? n depth
  rw [← treeAt_signed (Nat.zero_le n)] at operand ⊢
  have power : Finds (Memory.Signed n) [] (level constant? (depth + 2) .power (signed n 0)) _ _ :=
    finds_passing signed_ne_nil (ofSigns_signed n 0) nofun nofun nofun operand
  have sign : Finds (Memory.Signed n) [] (level constant? (depth + 3) .sign (signed n 0)) _ _ :=
    finds_level [(signed n 0).spot .power] signed_ne_nil power fun _ _ => List.mem_cons_self
  exact finds_passing signed_ne_nil (ofSigns_signed n 0) nofun nofun nofun sign

/-- One more sign costs no depth: the signs behind it are remembered. -/
theorem finds_signed_product (h : count ≤ n) :
    Finds (Memory.Signed n) (seen ((signed n count).tail 1)) (level constant? (depth + 4) .product (signed n count))
      (some (negated count)) (seen (signed n count)) := by
  refine finds_seen ?_
  rcases count with _ | count
  · exact finds_mono (finds_name_product constant? n depth) (List.nil_subset _) (List.subset_append_left _ _)
  rw [signed_tail_one h]
  have behind : Finds (Memory.Signed n) (seen (signed n count)) (level constant? (depth + 2) .sign (signed n count)) _ _ :=
    finds_known signed_ne_nil fun memory inv knows =>
      inv.passed _ (knows ((signed n count).spot .product) (by simp [seen, signed_ne_nil])) nofun nofun
  rw [treeAt_signed (Nat.le_of_succ_le h)] at behind
  have sign : Finds (Memory.Signed n) (seen (signed n count)) (level constant? (depth + 3) .sign (signed n (count + 1)))
      (treeAt n (signed n (count + 1)).start (signed n (count + 1)).chars.length) [(signed n (count + 1)).spot .sign] := by
    refine finds_level [(signed n count).spot .sign] signed_ne_nil ?_ fun _ inside => ?_
    · rw [treeAt_signed h]
      show Finds _ _ (Expr.negate <$> level constant? (depth + 2) .sign ((signed n (count + 1)).tail 1) <|> _) _ _
      rw [signed_tail_one h, ← negate_negated]
      exact finds_orElse_some (finds_map Expr.negate behind)
    · have := inside rfl
      rw [signed_length] at this
      simp only [signed] at this
      omega
  rw [← treeAt_signed h]
  exact finds_passing signed_ne_nil (ofSigns_signed _ _) nofun nofun nofun sign

theorem finds_signed_sum (h : count ≤ n) :
    Finds (Memory.Signed n) [] (level constant? (depth + 6) .sum (signed n count)) (some (negated count))
      [(signed n count).spot .sum] := by
  have tries : ∀ p < count, Finds (Memory.Signed n) (seen ((signed n count).tail (p + 2)))
      (tryMinus (level constant? (depth + 5)) (signed n count) p) none (seen ((signed n count).tail (p + 1))) := by
    intro p hp
    have shorter : count - (p + 1) ≤ n := by omega
    have right := finds_signed_product constant? (depth + 1) shorter
    rw [← signed_tail (by omega) h, Span.tail_tail] at right
    have before : n - count + p ≤ n := by omega
    have left := finds_minuses_sum constant? depth before
    rw [← signed_slice (Nat.le_of_lt hp)] at left
    exact finds_bind right (finds_bind_none (finds_mono left (List.nil_subset _) (List.subset_append_right _ _)))
  have splits := finds_no_split tries
  have nothing : seen ((signed n count).tail (count + 1)) = [] := by
    simp [seen, signed, signs, Span.tail]
  rw [nothing] at splits
  rw [← treeAt_signed h]
  refine finds_level (seen (signed n count)) signed_ne_nil ?_ fun _ _ => ?_
  · rw [treeAt_signed h, rule_sum _ _ (ofSigns_signed _ _)]
    exact finds_orElse splits (finds_signed_product constant? (depth + 1) h)
  · simp [seen, signed_ne_nil, Level.tighter]

theorem finds_signed (h : count ≤ n) :
    Finds (Memory.Signed n) [] (level constant? (depth + 10) .pipe (signed n count)) (some (negated count))
      [(signed n count).spot .pipe] := by
  have sum := finds_signed_sum constant? depth h
  rw [← treeAt_signed h] at sum ⊢
  have comparison : Finds _ _ (level constant? (depth + 7) .comparison (signed n count)) _ _ :=
    finds_passing signed_ne_nil (ofSigns_signed _ _) nofun nofun nofun sum
  have and : Finds _ _ (level constant? (depth + 8) .and (signed n count)) _ _ :=
    finds_passing signed_ne_nil (ofSigns_signed _ _) nofun nofun nofun comparison
  have or : Finds _ _ (level constant? (depth + 9) .or (signed n count)) _ _ :=
    finds_passing signed_ne_nil (ofSigns_signed _ _) nofun nofun nofun and
  exact finds_passing signed_ne_nil (ofSigns_signed _ _) nofun nofun nofun or

end Signed

end Levels

/-! ## Query text -/

theorem written_signs (operand spaced : Bool) (n : Nat) :
    writeFrom operand spaced (List.replicate n (.mark '-') ++ [.word ['x']]) = signs n := by
  induction n generalizing operand spaced with
  | zero => simp [writeFrom, isKeyword, signs]
  | succ n ih =>
    exact congrArg ('-' :: ·) (ih _ _)

theorem normalize_signs (n : Nat) : normalizeChars (signs n) = .ok (signs n) := by
  have marks : (List.replicate n '-').all isMark = true := List.all_eq_true.mpr fun c hc => by
    rw [List.eq_of_mem_replicate hc]
    decide
  have slashes : (List.replicate n '-').tail.all (· != '/') = true := List.all_eq_true.mpr fun c hc => by
    rw [List.eq_of_mem_replicate (List.mem_of_mem_tail hc)]
    decide
  have name : lexemesFrom (0 + (List.replicate n '-').length) ['x'] = .ok [.word ['x']] := by
    have closed := closed_name (List.cons_ne_nil 'x' []) (by decide) (0 + (List.replicate n '-').length) [] stops_nil
    rw [lexemesFrom] at closed
    exact closed
  unfold normalizeChars lexemes signs
  rw [lexemes_marks marks slashes (by decide), name]
  simp only [Except.map, List.map_replicate, written_signs]
  rfl

/-- Under every bound of at least 10, any number of signs. -/
theorem parse_signs {limits : Limits} (enough : 10 ≤ limits.parse) (n : Nat) :
    parse limits (String.ofList (signs n)) = .ok (negated n) := by
  rw [parse_of_normal (normalize_signs n)]
  obtain ⟨depth, hd⟩ : ∃ depth, limits.parse = depth + 10 := ⟨limits.parse - 10, by omega⟩
  have whole : signed n n = ⟨0, signs n⟩ := by simp [signed]
  obtain ⟨next, run, -⟩ := finds_signed (constant? limits) depth (Nat.le_refl n) ∅ (signed_empty n) nofun
  rw [whole, ← hd] at run
  show (Parser.ofText (signs n) limits).outcome
    ((level (constant? limits) limits.parse .pipe ⟨0, signs n⟩ : OptionT Remembering Expr).run.run.run ∅).1 = _
  rw [run]
  rfl

/-- A bound on depth of at least 10 bounds no tree. -/
theorem height_unbounded {limits : Limits} (enough : 10 ≤ limits.parse) (height : Nat) :
    ∃ query e, parse limits query = .ok e ∧ height < e.height :=
  ⟨_, _, parse_signs enough height, by rw [height_negated]; exact Nat.lt_succ_self height⟩

/-- What bounds a tree is the length of the normal form of its query. The bound on depth does not, from 10 on. -/
theorem tree_height (limits : Limits) :
    (∀ query e, parse limits query = .ok e → ∃ n, normalizeChars query.toList = .ok n ∧ e.height ≤ n.length) ∧
      (10 ≤ limits.parse → ∀ height, ∃ query e, parse limits query = .ok e ∧ height < e.height) :=
  ⟨parse_height limits, height_unbounded⟩

/-- Under a bound of 10: ten signs are no higher than their text is long, and some tree is higher than 10. -/
theorem tree_height_signs :
    (∃ n, normalizeChars (String.ofList (signs 10)).toList = .ok n ∧ (negated 10).height ≤ n.length) ∧
      ∃ query e, parse ⟨10, 512, 256⟩ query = .ok e ∧ 10 < e.height :=
  have enough : 10 ≤ (⟨10, 512, 256⟩ : Limits).parse := Nat.le_refl 10
  ⟨(tree_height ⟨10, 512, 256⟩).1 _ _ (parse_signs enough 10), (tree_height ⟨10, 512, 256⟩).2 enough 10⟩

/-- Ten signs and a name are eleven nodes high, and parse under a bound of 10. -/
theorem depth_bounds_no_tree : ¬ ∀ (limits : Limits) (query : String) (e : Expr), parse limits query = .ok e →
    e.height ≤ limits.parse := by
  intro bounded
  have high := bounded ⟨10, 512, 256⟩ _ _ (parse_signs (Nat.le_refl 10) 10)
  rw [height_negated] at high
  exact absurd high (by decide)

end Groq.Query
