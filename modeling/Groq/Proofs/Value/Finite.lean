/-
  Groq.Proofs.Value.Finite — values without an infinity or NaN.

  A value is finite where every number in it is, at any depth, and every instant is one of the calendar:
  the difference of two instants is a number. Fields, items and what is made of finite values without
  a sum are finite again.
  Proved: the operators give finite values for finite ones (`applyBinary_finite`), whatever they are,
  and so do rounding and the functions on arrays but for sums and means.
-/

import Groq.Eval
import Groq.Proofs.Double.Places
import Groq.Proofs.Instant.Range

namespace Groq

namespace Value

/-- No infinity and no NaN at any depth, and no instant outside the calendar. -/
inductive Finite : Value → Prop
  | null : Finite null
  | bool (b : Bool) : Finite (bool b)
  | string (s : String) : Finite (string s)
  | number {x : Float} : x.isFinite = true → Finite (number x)
  | dateTime {t : Instant} : t.Valid → Finite (dateTime t)
  | array {items : List Value} : (∀ item ∈ items, Finite item) → Finite (array items)
  | object {fields : List (String × Value)} : (∀ field ∈ fields, Finite field.2) → Finite (object fields)

theorem finite_number {x : Float} (h : (number x).Finite) : x.isFinite = true := by
  cases h
  assumption

theorem finite_dateTime {t : Instant} (h : (dateTime t).Finite) : t.Valid := by
  cases h
  assumption

theorem finite_items {items : List Value} (h : (array items).Finite) : ∀ item ∈ items, item.Finite := by
  cases h
  assumption

theorem finite_fields {fields : List (String × Value)} (h : (object fields).Finite) :
    ∀ field ∈ fields, field.2.Finite := by
  cases h
  assumption

mutual

def decideFinite : (v : Value) → Decidable v.Finite
  | null => .isTrue .null
  | bool b => .isTrue (.bool b)
  | string s => .isTrue (.string s)
  | number _ => decidable_of_iff _ ⟨.number, finite_number⟩
  | dateTime t => decidable_of_iff t.Valid ⟨.dateTime, finite_dateTime⟩
  | array items => @decidable_of_iff _ _ ⟨.array, finite_items⟩ (decideItems items)
  | object fields => @decidable_of_iff _ _ ⟨.object, finite_fields⟩ (decideFields fields)
termination_by structural v => v

def decideItems : (items : List Value) → Decidable (∀ item ∈ items, item.Finite)
  | [] => .isTrue nofun
  | item :: rest =>
    @decidable_of_iff _ _ List.forall_mem_cons.symm (@instDecidableAnd _ _ (decideFinite item) (decideItems rest))
termination_by structural items => items

def decideFields : (fields : List (String × Value)) → Decidable (∀ field ∈ fields, field.2.Finite)
  | [] => .isTrue nofun
  | (_, value) :: rest =>
    @decidable_of_iff _ _ List.forall_mem_cons.symm (@instDecidableAnd _ _ (decideFinite value) (decideFields rest))
termination_by structural fields => fields

end

instance : DecidablePred Finite := decideFinite

/-! ## Fields and items -/

section Parts

variable {v w : Value} {key : String} {fields entries : List (String × Value)} {items : List Value}

theorem getD_finite {o : Option Value} (h : ∀ v, o = some v → v.Finite) : (o.getD null).Finite := by
  cases o with
  | none => exact .null
  | some v => exact h v rfl

theorem find_mem {α : Type} {fields : List (String × α)} {a : α} (h : Fields.find? key fields = some a) :
    ∃ name, (name, a) ∈ fields := by
  induction fields with
  | nil => cases h
  | cons field rest ih =>
    obtain ⟨name, value⟩ := field
    unfold Fields.find? at h
    split at h
    · cases h
      exact ⟨name, List.mem_cons_self⟩
    · obtain ⟨name', mem⟩ := ih h
      exact ⟨name', List.mem_cons_of_mem _ mem⟩

theorem insert_finite (hv : v.Finite) (h : ∀ field ∈ fields, field.2.Finite) :
    ∀ field ∈ Fields.insert key v fields, field.2.Finite := by
  induction fields with
  | nil => exact List.forall_mem_singleton.mpr hv
  | cons field rest ih =>
    obtain ⟨first, others⟩ := List.forall_mem_cons.mp h
    unfold Fields.insert
    split
    · exact List.forall_mem_cons.mpr ⟨hv, others⟩
    · exact List.forall_mem_cons.mpr ⟨first, ih others⟩

theorem merge_finite (h : ∀ field ∈ fields, field.2.Finite) (he : ∀ entry ∈ entries, entry.2.Finite) :
    ∀ field ∈ Fields.merge fields entries, field.2.Finite := by
  induction entries generalizing fields with
  | nil => exact h
  | cons entry rest ih =>
    obtain ⟨first, others⟩ := List.forall_mem_cons.mp he
    exact ih (insert_finite first h) others

theorem field_finite (h : v.Finite) (found : v.field? key = some w) : w.Finite := by
  cases v with
  | object fields =>
    obtain ⟨name, mem⟩ := find_mem found
    exact finite_fields h _ mem
  | _ => cases found

theorem fieldOrNull_finite (h : v.Finite) : (v.fieldOrNull key).Finite := getD_finite fun _ => field_finite h

theorem readField_finite (h : v.Finite) : (v.readField key).Finite := by
  cases v with
  | array items =>
    refine .array (List.forall_mem_map.mpr fun item mem => ?_)
    exact fieldOrNull_finite (finite_items h item mem)
  | _ => exact fieldOrNull_finite h

theorem element_finite (index : Int) (h : v.Finite) : (v.element index).Finite := by
  cases v with
  | array items =>
    unfold element
    dsimp only
    split
    · exact .null
    · exact getD_finite fun w found => finite_items h w (List.mem_of_getElem? found)
  | _ => exact .null

theorem slice_finite (inclusive : Bool) (left right : Int) (h : v.Finite) : (v.slice inclusive left right).Finite := by
  cases v with
  | array items =>
    exact .array fun item mem => finite_items h item (List.mem_of_mem_take (List.mem_of_mem_drop mem))
  | _ => exact .null

theorem arrayOrNull_finite (h : v.Finite) : v.arrayOrNull.Finite := by
  cases v with
  | array items => exact h
  | _ => exact .null

end Parts

/-! ## Operators -/

section Operators

variable {v w : Value}

theorem ofFinite_finite (x : Float) : (ofFinite x).Finite := by
  unfold ofFinite
  split
  · exact .number ‹_›
  · exact .null

theorem numeric_finite (op : Float → Float → Float) : (numeric op v w).Finite := by
  unfold numeric
  split
  · exact ofFinite_finite _
  · exact .null

theorem shift_finite (t : Instant) (seconds : Float) : (shift t seconds).Finite := by
  unfold shift
  split
  · rename_i later found
    obtain ⟨millis, -, moved⟩ := Option.bind_eq_some_iff.mp found
    exact .dateTime (Instant.advance_valid moved)
  · exact .null

/-- The seconds between two instants are finite, since the calendar is. -/
theorem secondsBetween_finite {a b : Instant} (ha : a.Valid) (hb : b.Valid) : (secondsBetween a b).isFinite = true := by
  have thousand : Double.AtLeast 9 1000 := by decide +kernel
  have millis : Double.Below 100 (Float.ofInt (a.millisSince b)) := by
    have bound := Instant.millisSince_lt ha hb
    generalize a.millisSince b = n at *
    cases n with
    | ofNat n => exact (Double.below_ofNat bound (by decide) (by decide)).mono (by decide)
    | negSucc n =>
      exact ((Double.below_ofNat bound (by decide) (by decide)).neg (by decide) (by decide)).mono (by decide)
  exact (millis.div thousand (by decide) (by decide)).isFinite

theorem add_finite (hv : v.Finite) (hw : w.Finite) : (v.add w).Finite := by
  unfold add
  split
  · exact ofFinite_finite _
  · exact .string _
  · rename_i a b
    refine .array fun item mem => ?_
    exact (List.mem_append.mp mem).elim (finite_items hv item) (finite_items hw item)
  · exact .object (merge_finite (finite_fields hv) (finite_fields hw))
  · exact shift_finite _ _
  · exact .null

theorem subtract_finite (hv : v.Finite) (hw : w.Finite) : (v.subtract w).Finite := by
  unfold subtract
  split
  · exact ofFinite_finite _
  · exact .number (secondsBetween_finite (finite_dateTime hv) (finite_dateTime hw))
  · exact shift_finite _ _
  · exact .null

theorem neg_finite (h : v.Finite) : v.neg.Finite := by
  cases v with
  | number x => exact .number (Double.finite_signed true (finite_number h))
  | _ => exact .null

theorem pos_finite (h : v.Finite) : v.pos.Finite := by
  cases v with
  | number x => exact h
  | _ => exact .null

theorem and_finite (v w : Value) : (v.and w).Finite := by
  unfold and
  split <;> constructor

theorem or_finite (v w : Value) : (v.or w).Finite := by
  unfold or
  split <;> constructor

theorem not_finite (v : Value) : v.not.Finite := by
  unfold not
  split <;> constructor

theorem isIn_finite (v w : Value) : (v.isIn w).Finite := by
  unfold isIn
  split <;> constructor

theorem textMatch_finite (v w : Value) : (v.textMatch w).Finite := by
  unfold textMatch
  split <;> constructor

theorem comparison_finite (holds : Ordering → Bool) (v w : Value) : (Eval.comparison holds v w).Finite := by
  refine getD_finite fun x found => ?_
  obtain ⟨ordering, -, rfl⟩ := Option.map_eq_some_iff.mp found
  exact .bool _

theorem applyBinary_finite (op : BinaryOp) (hv : v.Finite) (hw : w.Finite) : (Eval.applyBinary op v w).Finite := by
  cases op with
  | equal | notEqual => exact .bool _
  | less | lessEqual | greater | greaterEqual => exact comparison_finite _ v w
  | isIn => exact isIn_finite v w
  | matchText => exact textMatch_finite v w
  | add => exact add_finite hv hw
  | subtract => exact subtract_finite hv hw
  | multiply | divide | modulo | power => exact numeric_finite _

end Operators

/-! ## Functions -/

section Functions

variable {v w : Value}

theorem ofNat_finite (n : Nat) : (ofNat n).Finite := by
  have below : Double.Below 65 (UInt64.ofNat n).toFloat :=
    Double.under_pack (Double.rounded_normalize (k := 64) .positive (UInt64.toNat_lt _) (by decide) (by decide) (by decide))
      (by decide) (by decide)
  exact .number below.isFinite

theorem count_finite (v : Value) : v.count.Finite := by
  unfold count
  split
  · exact ofNat_finite _
  · exact .null

theorem length_finite (v : Value) : v.length.Finite := by
  unfold length
  split
  · exact ofNat_finite _
  · exact ofNat_finite _
  · exact .null

theorem toDateTime_finite (h : v.Finite) : (Call.toDateTime v).Finite := by
  cases v with
  | string s =>
    refine getD_finite fun w found => ?_
    obtain ⟨t, read, rfl⟩ := Option.map_eq_some_iff.mp found
    exact .dateTime (Instant.ofText_valid read)
  | dateTime t => exact h
  | _ => exact .null

theorem geometry_finite (h : v.Finite) : v.geometry.Finite := by
  unfold geometry
  split
  · exact h
  · exact .null

theorem portableText_finite (h : v.Finite) : v.portableText.Finite := by
  unfold portableText
  split
  · exact h
  · exact .null

theorem blockText_finite (v : Value) : v.blockText.Finite := by
  unfold blockText
  split <;> constructor

theorem mapString_finite (f : List Char → List Char) (v : Value) : (v.mapString f).Finite := by
  unfold mapString
  split <;> constructor

theorem toPlainString_finite (v : Value) : v.toPlainString.Finite := by
  unfold toPlainString
  split
  · exact .string _
  · refine getD_finite fun w found => ?_
    obtain ⟨text, -, rfl⟩ := Option.map_eq_some_iff.mp found
    exact .string text

theorem compact_finite (h : v.Finite) : v.compact.Finite := by
  unfold compact
  split
  · exact .array fun item mem => finite_items h item (List.mem_filter.mp mem).1
  · exact .null

theorem uniqueFrom_subset (seen items : List Value) : ∀ item ∈ uniqueFrom seen items, item ∈ seen ∨ item ∈ items := by
  induction items generalizing seen with
  | nil => exact fun item mem => .inl (List.mem_reverse.mp mem)
  | cons first rest ih =>
    intro item mem
    unfold uniqueFrom at mem
    split at mem
    · exact (ih seen item mem).imp_right (List.mem_cons_of_mem first)
    · rcases ih (first :: seen) item mem with inSeen | inRest
      · rcases List.mem_cons.mp inSeen with rfl | inSeen
        · exact .inr List.mem_cons_self
        · exact .inl inSeen
      · exact .inr (List.mem_cons_of_mem first inRest)

theorem unique_finite (h : v.Finite) : v.unique.Finite := by
  unfold unique
  split
  · rename_i items
    refine .array fun item mem => finite_items h item ?_
    exact (uniqueFrom_subset [] items item mem).resolve_left List.not_mem_nil
  · exact .null

theorem intersects_finite (v w : Value) : (v.intersects w).Finite := by
  unfold intersects
  split <;> constructor

theorem startsWith_finite (v w : Value) : (v.startsWith w).Finite := by
  unfold startsWith
  split <;> constructor

theorem join_finite (v w : Value) : (v.join w).Finite := by
  unfold join
  split
  · split <;> constructor
  · exact .null

theorem split_finite (v w : Value) : (v.split w).Finite := by
  unfold split
  split
  · exact .array (List.forall_mem_map.mpr fun piece _ => .string _)
  · exact .null

theorem latLng_finite (hv : v.Finite) (hw : w.Finite) : (v.latLng w).Finite := by
  unfold latLng
  split
  · split
    · refine .object (List.forall_mem_cons.mpr ⟨.string _, List.forall_mem_singleton.mpr ?_⟩)
      exact .array (List.forall_mem_cons.mpr ⟨hw, List.forall_mem_singleton.mpr hv⟩)
    · exact .null
  · exact .null

/-- Each result of a run over a list is that of an element. -/
theorem mapM_mem {α β : Type} {f : α → Option β} {items : List α} {results : List β} (h : items.mapM f = some results) :
    ∀ b ∈ results, ∃ a ∈ items, f a = some b := by
  induction items generalizing results with
  | nil =>
    cases h
    nofun
  | cons a rest ih =>
    rw [List.mapM_cons] at h
    obtain ⟨b, first, h⟩ := Option.bind_eq_some_iff.mp h
    obtain ⟨bs, others, h⟩ := Option.bind_eq_some_iff.mp h
    cases h
    refine List.forall_mem_cons.mpr ⟨⟨a, List.mem_cons_self, first⟩, fun b mem => ?_⟩
    obtain ⟨a', inRest, each⟩ := ih others b mem
    exact ⟨a', List.mem_cons_of_mem a inRest, each⟩

/-- The numbers that a statistic is over are items of the array. -/
theorem numbers_finite {xs : List Float} (h : v.Finite) (found : v.numbers? = some xs) :
    ∀ x ∈ xs, x.isFinite = true := by
  unfold numbers? at found
  split at found
  · rename_i items
    intro x mem
    obtain ⟨item, kept, number⟩ := mapM_mem found x mem
    have finite := finite_items h item (List.mem_filter.mp kept).1
    cases item with
    | number y =>
      cases number
      exact finite_number finite
    | _ => cases number
  · cases found

theorem foldl_mem {α : Type} {f : α → α → α} (picks : ∀ a b, f a b = a ∨ f a b = b) (first : α) (rest : List α) :
    rest.foldl f first ∈ first :: rest := by
  induction rest generalizing first with
  | nil => exact List.mem_singleton_self first
  | cons next rest ih =>
    rcases List.mem_cons.mp (ih (f first next)) with last | inRest
    · rw [List.foldl_cons, last]
      exact List.mem_cons.mpr ((picks first next).imp_right fun second => List.mem_cons.mpr (.inl second))
    · exact List.mem_cons_of_mem _ (List.mem_cons_of_mem _ inRest)

/-- A statistic that picks one of the numbers. -/
theorem statistic_finite {f : Float → Float → Float} (picks : ∀ a b, f a b = a ∨ f a b = b) (h : v.Finite) :
    (statistic (fold1? f) v).Finite := by
  unfold statistic
  split
  · rename_i x found
    obtain ⟨xs, numbers, folded⟩ := Option.bind_eq_some_iff.mp found
    have finite := numbers_finite h numbers
    cases xs with
    | nil => cases folded
    | cons first rest =>
      cases folded
      exact .number (finite _ (foldl_mem picks first rest))
  · exact .null

theorem minimum_finite (h : v.Finite) : v.minimum.Finite := by
  refine statistic_finite (fun a b => ?_) h
  unfold lesser
  split_ifs <;> simp

theorem maximum_finite (h : v.Finite) : v.maximum.Finite := by
  refine statistic_finite (fun a b => ?_) h
  unfold greater
  split_ifs <;> simp

theorem roundNumber_finite (x : Float) (precision : Value) : (Call.roundNumber x precision).Finite := by
  unfold Call.roundNumber
  split
  · rename_i rounded found
    obtain ⟨places, -, rounded⟩ := Option.bind_eq_some_iff.mp found
    exact .number (Double.roundTo_finite rounded)
  · exact .null

end Functions

end Value

end Groq
