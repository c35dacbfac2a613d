/-
  Groq.Proofs.Value.Sorting — sorting by insertion is the stable sort.

  An order that may tie is given by what comes before what: never two values each before the other, and of a
  value before another any third comes behind the one or before the other (`Ties`). Values tied with one
  value are then tied with each other. Rows are inserted one by one into the sorted ones, which are kept with
  the greatest first; a row passes only rows that it precedes, so rows tied with it stay before it in the result.
  Proved: the result is a stable sort of the rows (`sortRows_sorts`), and there is no other (`IsStableSort.unique`).
-/

import Groq.Value.Order
import Mathlib.Data.List.Induction
import Mathlib.Data.List.Sublists

namespace Groq.Value

variable {α : Type}

/-! ## Orders with ties -/

def Tied (before : α → α → Prop) (a b : α) : Prop := ¬ before a b ∧ ¬ before b a

/-- The same elements, none of them behind one that comes before it; and a run of tied elements is in the
    output the run it is in the input. -/
structure IsStableSort (before : α → α → Prop) (input output : List α) : Prop where
  perm : output.Perm input
  sorted : output.Pairwise fun a b => ¬ before b a
  stable : ∀ run : List α, run.Sublist input → run.Pairwise (Tied before) → run.Sublist output

/-- What a sort needs to know of the order of the elements of a list. -/
structure Orders (before : α → α → Prop) (items : List α) : Prop where
  asymm : ∀ a ∈ items, ∀ b ∈ items, before a b → ¬ before b a
  between : ∀ a ∈ items, ∀ b ∈ items, ∀ c ∈ items, before a c → before a b ∨ before b c

section Ties

variable {before : α → α → Prop} {items : List α}

theorem Tied.symm {a b : α} (h : Tied before a b) : Tied before b a := ⟨h.2, h.1⟩

theorem Orders.tied_self (h : Orders before items) {a : α} (ha : a ∈ items) : Tied before a a :=
  ⟨fun less => h.asymm a ha a ha less less, fun less => h.asymm a ha a ha less less⟩

theorem Orders.tied_trans (h : Orders before items) {a b c : α} (ha : a ∈ items) (hb : b ∈ items) (hc : c ∈ items)
    (hab : Tied before a b) (hbc : Tied before b c) : Tied before a c :=
  ⟨fun less => (h.between a ha b hb c hc less).elim hab.1 hbc.1,
    fun less => (h.between c hc b hb a ha less).elim hbc.2 hab.2⟩

theorem Orders.of_subset (h : Orders before items) {some : List α} (sub : some ⊆ items) : Orders before some where
  asymm a ha b hb := h.asymm a (sub ha) b (sub hb)
  between a ha b hb c hc := h.between a (sub ha) b (sub hb) c (sub hc)

/-- The elements tied with one of them are tied with each other. -/
theorem Orders.pairwise_tied (h : Orders before items) {a : α} (ha : a ∈ items) {run : List α} (sub : run ⊆ items)
    (tied : ∀ b ∈ run, Tied before a b) : run.Pairwise (Tied before) := by
  refine List.Pairwise.imp_of_mem (fun {b c} hb hc _ => ?_) (List.pairwise_of_forall (fun _ _ => trivial))
  exact h.tied_trans (sub hb) ha (sub hc) (tied b hb).symm (tied c hc)

end Ties

/-! ## There is one stable sort -/

section Unique

open Classical

variable {before : α → α → Prop} {items output other : List α}

/-- Of the elements tied with one, the output has the run that the input has. -/
theorem IsStableSort.filter_eq (h : IsStableSort before items output) (order : Orders before items) {a : α}
    (ha : a ∈ items) : (output.filter (Tied before a ·)) = items.filter (Tied before a ·) := by
  have kept : (items.filter (Tied before a ·)).Sublist output := by
    refine h.stable _ List.filter_sublist (order.pairwise_tied ha (List.filter_subset_self _) fun b hb => ?_)
    simpa using (List.mem_filter.mp hb).2
  have inside : (items.filter (Tied before a ·)).Sublist (output.filter (Tied before a ·)) := by
    simpa using kept.filter (Tied before a ·)
  have count : (items.filter (Tied before a ·)).length = (output.filter (Tied before a ·)).length :=
    (h.perm.filter _).length_eq.symm
  exact (inside.eq_of_length count).symm

/-- Two sorted lists of the same elements, with the same runs of tied ones. By induction along both: neither
    first element comes before the other, so they are tied, and are the first of the same run. -/
theorem eq_of_filter_eq (order : Orders before output) (sorted : output.Pairwise fun a b => ¬ before b a)
    (sorted' : other.Pairwise fun a b => ¬ before b a) (perm : output.Perm other)
    (runs : ∀ a ∈ output, (output.filter (Tied before a ·)) = other.filter (Tied before a ·)) : output = other := by
  induction output generalizing other with
  | nil => exact perm.nil_eq
  | cons x xs ih =>
    rcases other with _ | ⟨y, ys⟩
    · exact absurd perm.length_eq nofun
    · have hx : x ∈ x :: xs := List.mem_cons_self
      have hy : y ∈ x :: xs := perm.mem_iff.mpr List.mem_cons_self
      have tied : Tied before x y := by
        have self := (order.tied_self hx).1
        constructor
        · rcases List.mem_cons.mp (perm.mem_iff.mp hx) with rfl | later
          · exact self
          · exact List.rel_of_pairwise_cons sorted' later
        · rcases List.mem_cons.mp hy with rfl | later
          · exact self
          · exact List.rel_of_pairwise_cons sorted later
      have first : x = y := by
        have run := runs x hx
        rw [List.filter_cons_of_pos (by simpa using order.tied_self hx),
          List.filter_cons_of_pos (by simpa using tied)] at run
        exact (List.cons.inj run).1
      subst first
      refine congrArg (x :: ·) (ih (order.of_subset (List.subset_cons_self x xs)) sorted.of_cons sorted'.of_cons
        perm.cons_inv fun a ha => ?_)
      have run := runs a (List.mem_cons_of_mem x ha)
      rw [List.filter_cons, List.filter_cons] at run
      split at run
      · exact (List.cons.inj run).2
      · exact run

theorem IsStableSort.unique (h : IsStableSort before items output) (h' : IsStableSort before items other)
    (order : Orders before items) : output = other := by
  refine eq_of_filter_eq (order.of_subset h.perm.subset) h.sorted h'.sorted (h.perm.trans h'.perm.symm) fun a ha => ?_
  rw [h.filter_eq order (h.perm.subset ha), h'.filter_eq order (h.perm.subset ha)]

end Unique

/-! ## Insertion -/

section Insertion

variable {precedes : α → α → Bool} {items done : List α} {row : α}

theorem insertRow_perm (precedes : α → α → Bool) (row : α) (done : List α) :
    (insertRow precedes row done).Perm (row :: done) := by
  induction done with
  | nil => exact List.Perm.refl _
  | cons last rest ih =>
    unfold insertRow
    split
    · exact (ih.cons last).trans (List.Perm.swap row last rest)
    · exact List.Perm.refl _

theorem sublist_insertRow (precedes : α → α → Bool) (row : α) (done : List α) :
    done.Sublist (insertRow precedes row done) := by
  induction done with
  | nil => exact List.nil_sublist _
  | cons last rest ih =>
    unfold insertRow
    split
    · exact ih.cons_cons last
    · exact List.sublist_cons_self row _

/-- The row passes those it precedes; the next it does not precede, and none behind that, as they are sorted. -/
theorem insertRow_sorted (order : Orders (precedes · ·) (row :: done))
    (sorted : done.Pairwise fun a b => ¬ precedes a b) :
    (insertRow precedes row done).Pairwise fun a b => ¬ precedes a b := by
  induction done with
  | nil => exact List.pairwise_singleton _ _
  | cons last rest ih =>
    have hrow : row ∈ row :: last :: rest := List.mem_cons_self
    have hlast : last ∈ row :: last :: rest := List.mem_cons_of_mem row List.mem_cons_self
    unfold insertRow
    split
    · rename_i passes
      have fewer : row :: rest ⊆ row :: last :: rest := List.cons_subset_cons row (List.subset_cons_self last rest)
      have order' := order.of_subset fewer
      refine List.pairwise_cons.mpr ⟨fun b hb => ?_, ih order' sorted.of_cons⟩
      rcases List.mem_cons.mp ((insertRow_perm precedes row rest).mem_iff.mp hb) with rfl | later
      · exact order.asymm _ hrow _ hlast passes
      · exact List.rel_of_pairwise_cons sorted later
    · rename_i stays
      refine List.pairwise_cons.mpr ⟨fun b hb => ?_, sorted⟩
      rcases List.mem_cons.mp hb with rfl | later
      · exact stays
      · intro less
        have hb : b ∈ row :: last :: rest := List.mem_cons_of_mem row (List.mem_cons_of_mem last later)
        exact (order.between row hrow last hlast b hb less).elim stays (List.rel_of_pairwise_cons sorted later)

/-- Rows tied with the row inserted are behind it, the last of them nearest. -/
theorem insertRow_run {run : List α} (sub : run.Sublist done) (tied : ∀ a ∈ run, Tied (precedes · ·) row a) :
    (row :: run).Sublist (insertRow precedes row done) := by
  induction done with
  | nil =>
    rw [List.sublist_nil.mp sub]
    exact List.Sublist.refl _
  | cons last rest ih =>
    unfold insertRow
    split
    · rename_i passes
      cases sub with
      | cons _ sub => exact (ih sub).cons last
      | cons_cons _ sub => exact absurd passes (tied last List.mem_cons_self).1
    · exact sub.cons_cons row

end Insertion

/-! ## Sorting -/

section Sorts

variable {precedes : α → α → Bool}

theorem sortRows_append (precedes : α → α → Bool) (rows : List α) (row : α) :
    sortRows precedes (rows ++ [row]) = (insertRow precedes row (sortRows precedes rows).reverse).reverse := by
  simp [sortRows]

/-- Sorting moves rows, in whatever order. -/
theorem sortRows_perm (precedes : α → α → Bool) (rows : List α) : (sortRows precedes rows).Perm rows := by
  induction rows using List.reverseRecOn with
  | nil => exact List.Perm.refl _
  | append_singleton rows row ih =>
    rw [sortRows_append]
    have moved : (row :: (sortRows precedes rows).reverse).Perm (rows ++ [row]) :=
      (((List.reverse_perm _).trans ih).cons row).trans (List.perm_append_singleton row rows).symm
    exact (List.reverse_perm _).trans ((insertRow_perm precedes row _).trans moved)

/-- One row more. -/
theorem IsStableSort.insert {read done : List α} {row : α} (h : IsStableSort (precedes · ·) read done.reverse)
    (order : Orders (precedes · ·) (read ++ [row])) :
    IsStableSort (precedes · ·) (read ++ [row]) (insertRow precedes row done).reverse where
  perm := by
    have all : (row :: done).Perm (read ++ [row]) :=
      ((List.reverse_perm done).symm.trans h.perm).cons row |>.trans (List.perm_append_singleton row read).symm
    exact (List.reverse_perm _).trans ((insertRow_perm precedes row done).trans all)
  sorted := by
    have members : row :: done ⊆ read ++ [row] := by
      intro a ha
      rcases List.mem_cons.mp ha with rfl | ha
      · simp
      · exact List.mem_append_left _ (h.perm.subset (List.mem_reverse.mpr ha))
    rw [List.pairwise_reverse]
    exact insertRow_sorted (order.of_subset members) (List.pairwise_reverse.mp h.sorted)
  stable := by
    intro run sub tied
    obtain ⟨front, last, rfl, inside, end_⟩ := List.sublist_append_iff.mp sub
    rw [List.pairwise_append] at tied
    have kept : front.reverse.Sublist done := by
      simpa using (h.stable front inside tied.1).reverse
    rcases List.sublist_singleton.mp end_ with rfl | rfl
    · simpa using (kept.trans (sublist_insertRow precedes row done)).reverse
    · have behind : ∀ a ∈ front.reverse, Tied (precedes · ·) row a := fun a ha =>
        (tied.2.2 a (List.mem_reverse.mp ha) row List.mem_cons_self).symm
      simpa using (insertRow_run kept behind).reverse

/-- By induction on the rows, the last one inserted last. -/
theorem sortRows_sorts (rows : List α) (order : Orders (precedes · ·) rows) :
    IsStableSort (precedes · ·) rows (sortRows precedes rows) := by
  induction rows using List.reverseRecOn with
  | nil => exact ⟨List.Perm.refl _, List.Pairwise.nil, fun run sub _ => sub⟩
  | append_singleton rows row ih =>
    rw [sortRows_append]
    refine IsStableSort.insert ?_ order
    rw [List.reverse_reverse]
    exact ih (order.of_subset (List.subset_append_left rows [row]))

theorem insertRow_map {β : Type} (f : β → α) (row : β) (done : List β) :
    insertRow precedes (f row) (done.map f) = (insertRow (fun a b => precedes (f a) (f b)) row done).map f := by
  induction done with
  | nil => rfl
  | cons last rest ih =>
    simp only [insertRow, List.map_cons]
    split
    · rw [ih, List.map_cons]
    · rfl

/-- Sorting rows made of items is sorting the items by their rows. -/
theorem sortRows_map {β : Type} (f : β → α) (items : List β) :
    sortRows precedes (items.map f) = (sortRows (fun a b => precedes (f a) (f b)) items).map f := by
  induction items using List.reverseRecOn with
  | nil => rfl
  | append_singleton items item ih =>
    rw [List.map_append, List.map_singleton, sortRows_append, ih, sortRows_append, ← List.map_reverse, insertRow_map,
      List.map_reverse]

end Sorts

end Groq.Value
