/-
  Groq.Proofs.Value.Unique — `array::unique` keeps the first of each.

  Equality is no equivalence: NaN does not equal itself, and two texts may equal one instant and not each
  other. So what is kept depends on the order of the items, and the scan is followed item by item: the next
  item is dropped just where it equals one that is kept already (`uniqueFrom_concat`), and that keeps which
  positions have been kept and why (`FirstOfEach`).
  Proved: which items `unique` gives, and that it gives them back unchanged (`unique_first_of_each`).
-/

import Groq.Proofs.Value.Equality
import Groq.Value.Collection

namespace Groq.Value

/-- `result` is made of the items at the positions `kept`: no two of them are equal, and each of the other items
    equals one that is kept before it. -/
structure FirstOfEach (items : List Value) (kept : List Nat) (result : List Value) : Prop where
  increasing : kept.Pairwise (· < ·)
  found : kept.map (items[·]?) = result.map some
  distinct : result.Pairwise fun a b => equals a b = false
  covered : ∀ i item, items[i]? = some item → i ∉ kept →
    ∃ j ∈ kept, j < i ∧ ∃ earlier, items[j]? = some earlier ∧ equals earlier item = true

section Scan

variable {seen items result : List Value} {kept : List Nat} {item : Value}

theorem uniqueFrom_append (seen items rest : List Value) :
    uniqueFrom seen (items ++ rest) = uniqueFrom (uniqueFrom seen items).reverse rest := by
  induction items generalizing seen with
  | nil => exact congrArg (uniqueFrom · rest) (List.reverse_reverse seen).symm
  | cons first items ih =>
    rw [List.cons_append, uniqueFrom, uniqueFrom]
    split
    · exact ih seen
    · exact ih (first :: seen)

/-- The next item is dropped where it equals one that is kept, and kept otherwise. -/
theorem uniqueFrom_concat (seen items : List Value) (item : Value) :
    uniqueFrom seen (items ++ [item]) =
      if (uniqueFrom seen items).any (equals · item) then uniqueFrom seen items
      else uniqueFrom seen items ++ [item] := by
  rw [uniqueFrom_append, uniqueFrom, List.any_reverse]
  split
  · rw [uniqueFrom, List.reverse_reverse]
  · rw [uniqueFrom, List.reverse_cons, List.reverse_reverse]

/-- What is kept stays in front. -/
theorem uniqueFrom_begins (seen items : List Value) : ∃ more, uniqueFrom seen items = seen.reverse ++ more := by
  induction items generalizing seen with
  | nil => exact ⟨[], (List.append_nil _).symm⟩
  | cons item rest ih =>
    unfold uniqueFrom
    split
    · exact ih seen
    · obtain ⟨more, begins⟩ := ih (item :: seen)
      exact ⟨item :: more, by rw [begins, List.reverse_cons, List.append_assoc, List.singleton_append]⟩

theorem uniqueFrom_head (items : List Value) : (uniqueFrom [] items).head? = items.head? := by
  cases items with
  | nil => rfl
  | cons first rest =>
    obtain ⟨more, begins⟩ := uniqueFrom_begins [first] rest
    rw [uniqueFrom, if_neg (by simp), begins]
    rfl

/-- Items of which none equals an earlier one are all kept. -/
theorem uniqueFrom_distinct (distinct : (seen.reverse ++ items).Pairwise fun a b => equals a b = false) :
    uniqueFrom seen items = seen.reverse ++ items := by
  induction items generalizing seen with
  | nil => exact (List.append_nil _).symm
  | cons item rest ih =>
    have new : ¬ seen.any (equals · item) = true := by
      intro old
      obtain ⟨earlier, mem, equal⟩ := List.any_eq_true.mp old
      have apart := (List.pairwise_append.mp distinct).2.2 earlier (List.mem_reverse.mpr mem) item List.mem_cons_self
      rw [apart] at equal
      cases equal
    have split : seen.reverse ++ item :: rest = (item :: seen).reverse ++ rest := by
      rw [List.reverse_cons, List.append_assoc, List.singleton_append]
    rw [split] at distinct ⊢
    rw [uniqueFrom, if_neg new, ih distinct]

end Scan

/-! ## What the scan has kept -/

section FirstOfEach

variable {items result : List Value} {kept : List Nat} {item : Value}

theorem FirstOfEach.nil : FirstOfEach [] [] [] := ⟨.nil, rfl, .nil, nofun⟩

theorem FirstOfEach.lt_length (h : FirstOfEach items kept result) : ∀ i ∈ kept, i < items.length := by
  intro i mem
  have shown : items[i]? ∈ result.map some := h.found ▸ List.mem_map.mpr ⟨i, mem, rfl⟩
  obtain ⟨value, -, found⟩ := List.mem_map.mp shown
  exact (List.getElem?_eq_some_iff.mp found.symm).1

/-- The items that are kept stand where they stood. -/
theorem FirstOfEach.found_concat (h : FirstOfEach items kept result) (item : Value) :
    kept.map ((items ++ [item])[·]?) = result.map some := by
  rw [← h.found]
  exact List.map_congr_left fun i mem => List.getElem?_append_left (h.lt_length i mem)

theorem FirstOfEach.position (h : FirstOfEach items kept result) {a : Value} (mem : a ∈ result) :
    ∃ j ∈ kept, items[j]? = some a := by
  have shown : some a ∈ kept.map (items[·]?) := h.found ▸ List.mem_map.mpr ⟨a, mem, rfl⟩
  exact List.mem_map.mp shown

/-- What covers an item still does behind one more. -/
theorem FirstOfEach.covered_concat (h : FirstOfEach items kept result) (item : Value) {i : Nat} {a : Value}
    (found : items[i]? = some a) (dropped : i ∉ kept) :
    ∃ j ∈ kept, j < i ∧ ∃ earlier, (items ++ [item])[j]? = some earlier ∧ equals earlier a = true := by
  obtain ⟨j, mem, before, earlier, stands, equal⟩ := h.covered i a found dropped
  exact ⟨j, mem, before, earlier, (List.getElem?_append_left (h.lt_length j mem)).trans stands, equal⟩

theorem getElem_concat {i : Nat} {a : Value} (found : (items ++ [item])[i]? = some a) :
    items[i]? = some a ∨ i = items.length ∧ a = item := by
  rcases Nat.lt_or_ge i items.length with inside | behind
  · exact .inl ((List.getElem?_append_left inside).symm.trans found)
  · rw [List.getElem?_append_right behind, List.getElem?_singleton] at found
    split at found
    · rename_i last
      cases found
      exact .inr ⟨by omega, rfl⟩
    · cases found

theorem FirstOfEach.drop (h : FirstOfEach items kept result) (old : result.any (equals · item) = true) :
    FirstOfEach (items ++ [item]) kept result where
  increasing := h.increasing
  found := h.found_concat item
  distinct := h.distinct
  covered i a found dropped := by
    rcases getElem_concat found with found | ⟨rfl, rfl⟩
    · exact h.covered_concat item found dropped
    · obtain ⟨earlier, mem, equal⟩ := List.any_eq_true.mp old
      obtain ⟨j, kept_j, stands⟩ := h.position mem
      have before := h.lt_length j kept_j
      exact ⟨j, kept_j, before, earlier, (List.getElem?_append_left before).trans stands, equal⟩

theorem FirstOfEach.keep (h : FirstOfEach items kept result) (new : ¬ result.any (equals · item) = true) :
    FirstOfEach (items ++ [item]) (kept ++ [items.length]) (result ++ [item]) where
  increasing := by
    refine List.pairwise_append.mpr ⟨h.increasing, List.pairwise_singleton _ _, fun i mem j last => ?_⟩
    rw [List.mem_singleton.mp last]
    exact h.lt_length i mem
  found := by
    rw [List.map_append, List.map_append, h.found_concat, List.map_singleton, List.map_singleton,
      List.getElem?_concat_length]
  distinct := by
    refine List.pairwise_append.mpr ⟨h.distinct, List.pairwise_singleton _ _, fun a mem b last => ?_⟩
    rw [List.mem_singleton.mp last]
    exact Bool.eq_false_of_not_eq_true fun equal => new (List.any_eq_true.mpr ⟨a, mem, equal⟩)
  covered i a found dropped := by
    rw [List.mem_append, not_or, List.mem_singleton] at dropped
    rcases getElem_concat found with found | ⟨last, -⟩
    · obtain ⟨j, mem, rest⟩ := h.covered_concat item found dropped.1
      exact ⟨j, List.mem_append_left _ mem, rest⟩
    · exact absurd last dropped.2

end FirstOfEach

/-- The scan of a list, item by item. -/
theorem firstOfEach_uniqueFrom (items : List Value) : ∃ kept, FirstOfEach items kept (uniqueFrom [] items) := by
  induction items using List.reverseRecOn with
  | nil => exact ⟨[], .nil⟩
  | append_singleton items item ih =>
    obtain ⟨kept, h⟩ := ih
    rw [uniqueFrom_concat]
    split
    · rename_i old
      exact ⟨kept, h.drop old⟩
    · rename_i new
      exact ⟨_, h.keep new⟩

/-- `unique` gives the first of each, the first item always; what it gives has nothing left to drop. -/
theorem unique_first_of_each (items : List Value) : ∃ kept result,
    unique (array items) = array result ∧ FirstOfEach items kept result ∧ result.head? = items.head? ∧
      unique (array result) = array result := by
  obtain ⟨kept, h⟩ := firstOfEach_uniqueFrom items
  exact ⟨kept, uniqueFrom [] items, rfl, h, uniqueFrom_head items, congrArg array (uniqueFrom_distinct h.distinct)⟩

end Groq.Value
