/-
  Groq.Proofs.Value.Equality — which values a query calls equal.

  Values are alike where they are the same scalar, or containers of one shape (arrays of one length, objects
  with the same keys) whose parts at the same index or key are alike (`Alike`). The library compares objects one way
  only: it counts their fields and looks each field of the left up on the right. And it lets an instant on
  the left match a text on the right, for the whole of two values at a time.
  Proved: on values without instants and NaN `==` holds just where values are alike, and is an equivalence
  (`equals_structural`). With instants, containers are equal where their parts are, unless texts face
  instants on both sides (`equals_parts`); there they are not (`equals_both_sides`).
-/

import Groq.Instant.Text
import Groq.Proofs.Fields
import Groq.Proofs.Value.KeyOrder
import Groq.Value.Equality

namespace Groq.Value

/-! ## Parts -/

/-- The values directly in a value. -/
def parts : Value → List Value
  | array items => items
  | object fields => fields.map Prod.snd
  | _ => []

/-- A property of a value and of all values in it, at any depth. -/
inductive Everywhere (p : Value → Prop) : Value → Prop
  | intro {v : Value} : p v → (∀ part ∈ v.parts, Everywhere p part) → Everywhere p v

section Everywhere

variable {p : Value → Prop} {v : Value}

theorem Everywhere.here (h : Everywhere p v) : p v := by
  cases h
  assumption

theorem Everywhere.part (h : Everywhere p v) : ∀ part ∈ v.parts, Everywhere p part := by
  cases h
  assumption

theorem everywhere_iff : Everywhere p v ↔ p v ∧ ∀ part ∈ v.parts, Everywhere p part :=
  ⟨fun h => ⟨h.here, h.part⟩, fun h => .intro h.1 h.2⟩

mutual

def decideEverywhere (p : Value → Prop) [DecidablePred p] : (v : Value) → Decidable (Everywhere p v)
  | array items => @decidable_of_iff _ _ everywhere_iff.symm (@instDecidableAnd _ _ _ (decideItemsEverywhere p items))
  | object fields => @decidable_of_iff _ _ everywhere_iff.symm (@instDecidableAnd _ _ _ (decideFieldsEverywhere p fields))
  | null => decidable_of_iff (p null) ⟨fun h => .intro h (List.forall_mem_nil _), Everywhere.here⟩
  | bool b => decidable_of_iff (p (bool b)) ⟨fun h => .intro h (List.forall_mem_nil _), Everywhere.here⟩
  | number x => decidable_of_iff (p (number x)) ⟨fun h => .intro h (List.forall_mem_nil _), Everywhere.here⟩
  | string s => decidable_of_iff (p (string s)) ⟨fun h => .intro h (List.forall_mem_nil _), Everywhere.here⟩
  | dateTime t => decidable_of_iff (p (dateTime t)) ⟨fun h => .intro h (List.forall_mem_nil _), Everywhere.here⟩
termination_by structural v => v

def decideItemsEverywhere (p : Value → Prop) [DecidablePred p] :
    (items : List Value) → Decidable (∀ item ∈ items, Everywhere p item)
  | [] => .isTrue (List.forall_mem_nil _)
  | item :: rest =>
    @decidable_of_iff _ _ List.forall_mem_cons.symm
      (@instDecidableAnd _ _ (decideEverywhere p item) (decideItemsEverywhere p rest))
termination_by structural items => items

def decideFieldsEverywhere (p : Value → Prop) [DecidablePred p] :
    (fields : List (String × Value)) → Decidable (∀ value ∈ fields.map Prod.snd, Everywhere p value)
  | [] => .isTrue (List.forall_mem_nil _)
  | (_, value) :: rest =>
    @decidable_of_iff _ _ List.forall_mem_cons.symm
      (@instDecidableAnd _ _ (decideEverywhere p value) (decideFieldsEverywhere p rest))
termination_by structural fields => fields

end

instance (p : Value → Prop) [DecidablePred p] : DecidablePred (Everywhere p) := decideEverywhere p

end Everywhere

/-! ## Objects as maps -/

/-- An object has each key once. -/
def KeysOnce : Value → Prop
  | object fields => (fields.map Prod.fst).Nodup
  | _ => True

instance : DecidablePred KeysOnce
  | object _ => inferInstanceAs (Decidable (List.Nodup _))
  | null | bool _ | number _ | string _ | array _ | dateTime _ => .isTrue trivial

/-- Objects at any depth have each key once, as those have that are built field by field (`Fields.nodup_insert`,
    `Fields.nodup_merge`). -/
def Keyed (v : Value) : Prop := Everywhere KeysOnce v

instance : DecidablePred Keyed := decideEverywhere KeysOnce

section Fields

variable {key : String} {a : Value} {fields : List (String × Value)}

theorem mem_of_find (h : Fields.find? key fields = some a) : (key, a) ∈ fields := by
  induction fields with
  | nil => cases h
  | cons field rest ih =>
    obtain ⟨name, value⟩ := field
    unfold Fields.find? at h
    split at h
    · rename_i same
      cases h
      rw [same]
      exact List.mem_cons_self
    · exact List.mem_cons_of_mem _ (ih h)

theorem mem_keys_iff : key ∈ fields.map Prod.fst ↔ ∃ a, Fields.find? key fields = some a := by
  constructor
  · intro mem
    induction fields with
    | nil => cases mem
    | cons field rest ih =>
      unfold Fields.find?
      split
      · exact ⟨_, rfl⟩
      · rename_i different
        exact ih ((List.mem_cons.mp mem).resolve_left (Ne.symm different))
  · rintro ⟨a, found⟩
    exact List.mem_map.mpr ⟨(key, a), mem_of_find found, rfl⟩

/-- Where each key stands once, every field is found. -/
theorem find_of_mem (keys : (fields.map Prod.fst).Nodup) (mem : (key, a) ∈ fields) :
    Fields.find? key fields = some a := by
  induction fields with
  | nil => cases mem
  | cons field rest ih =>
    obtain ⟨fresh, others⟩ := List.nodup_cons.mp keys
    unfold Fields.find?
    rcases List.mem_cons.mp mem with rfl | mem
    · exact if_pos rfl
    · have different : field.1 ≠ key := by
        rintro rfl
        exact fresh (List.mem_map.mpr ⟨_, mem, rfl⟩)
      exact (if_neg different).trans (ih others mem)

end Fields

/-! ## Parts that face each other -/

/-- Parts of two containers under the same index or key. -/
inductive Facing : Value → Value → Value → Value → Prop
  | item {as bs : List Value} {i : Nat} {a b : Value} : as[i]? = some a → bs[i]? = some b →
    Facing (array as) (array bs) a b
  | field {as bs : List (String × Value)} {key : String} {a b : Value} : Fields.find? key as = some a →
    Fields.find? key bs = some b → Facing (object as) (object bs) a b

/-- Arrays of one length, or objects with the same keys. -/
inductive SameShape : Value → Value → Prop
  | array {as bs : List Value} : as.length = bs.length → SameShape (array as) (array bs)
  | object {as bs : List (String × Value)} : (∀ key, key ∈ as.map Prod.fst ↔ key ∈ bs.map Prod.fst) →
    SameShape (object as) (object bs)

section Facing

variable {v w u a b c : Value}

theorem Facing.swap (h : Facing v w a b) : Facing w v b a := by
  cases h with
  | item left right => exact .item right left
  | field left right => exact .field right left

theorem Facing.left (h : Facing v w a b) : a ∈ v.parts := by
  cases h with
  | item found _ => exact List.mem_of_getElem? found
  | field found _ => exact List.mem_map.mpr ⟨_, mem_of_find found, rfl⟩

theorem Facing.right (h : Facing v w a b) : b ∈ w.parts := h.swap.left

theorem Facing.eq (h : Facing v v a b) : a = b := by
  cases h with
  | item left right => exact Option.some.inj (left.symm.trans right)
  | field left right => exact Option.some.inj (left.symm.trans right)

theorem SameShape.symm (h : SameShape v w) : SameShape w v := by
  cases h with
  | array length => exact .array length.symm
  | object keys => exact .object fun key => (keys key).symm

theorem SameShape.trans (h : SameShape v w) (h' : SameShape w u) : SameShape v u := by
  cases h with
  | array length =>
    cases h' with
    | array length' => exact .array (length.trans length')
  | object keys =>
    cases h' with
    | object keys' => exact .object fun key => (keys key).trans (keys' key)

/-- Between two parts at one place stands the part of any container of that shape. -/
theorem Facing.between (h : Facing v u a c) (shape : SameShape v w) : ∃ b, Facing v w a b ∧ Facing w u b c := by
  cases shape with
  | @array as bs length =>
    cases h with
    | @item _ _ i _ _ left right =>
      obtain ⟨inside, -⟩ := List.getElem?_eq_some_iff.mp left
      have found : bs[i]? = some bs[i] := List.getElem?_eq_getElem (length ▸ inside)
      exact ⟨_, .item left found, .item found right⟩
  | object keys =>
    cases h with
    | field left right =>
      obtain ⟨b, found⟩ := mem_keys_iff.mp ((keys _).mp (mem_keys_iff.mpr ⟨_, left⟩))
      exact ⟨b, .field left found, .field found right⟩

end Facing

/-! ## Comparing containers -/

section Containers

variable {as bs : List Value} {R : Value → Value → Prop}

theorem forall₂_iff_facing :
    List.Forall₂ R as bs ↔ as.length = bs.length ∧ ∀ a b, Facing (array as) (array bs) a b → R a b := by
  rw [List.forall₂_iff_get]
  refine and_congr_right fun length => ⟨fun related a b facing => ?_, fun related i hi hi' => ?_⟩
  · cases facing with
    | item left right =>
      obtain ⟨hi, rfl⟩ := List.getElem?_eq_some_iff.mp left
      obtain ⟨hi', rfl⟩ := List.getElem?_eq_some_iff.mp right
      exact related _ hi hi'
  · exact related _ _ (.item (List.getElem?_eq_getElem hi) (List.getElem?_eq_getElem hi'))

/-- Objects with as many fields, each found in the other: with each key once on both sides, no key can be left over. -/
theorem found_iff_facing {fs gs : List (String × Value)} (hf : (fs.map Prod.fst).Nodup) (hg : (gs.map Prod.fst).Nodup) :
    (fs.length = gs.length ∧ ∀ field ∈ fs, ∃ b, Fields.find? field.1 gs = some b ∧ R field.2 b) ↔
      SameShape (object fs) (object gs) ∧ ∀ a b, Facing (object fs) (object gs) a b → R a b := by
  constructor
  · rintro ⟨length, found⟩
    have subset : fs.map Prod.fst ⊆ gs.map Prod.fst := by
      intro key mem
      obtain ⟨field, inside, rfl⟩ := List.mem_map.mp mem
      obtain ⟨b, hb, -⟩ := found field inside
      exact mem_keys_iff.mpr ⟨b, hb⟩
    have enough : (gs.map Prod.fst).length ≤ (fs.map Prod.fst).length := by simp [length]
    have perm : (fs.map Prod.fst).Perm (gs.map Prod.fst) := (hf.subperm subset).perm_of_length_le enough
    refine ⟨.object fun key => perm.mem_iff, ?_⟩
    intro a b facing
    cases facing with
    | field left right =>
      obtain ⟨b', hb, related⟩ := found _ (mem_of_find left)
      cases right.symm.trans hb
      exact related
  · rintro ⟨shape, related⟩
    cases shape with
    | object keys =>
      have perm : (fs.map Prod.fst).Perm (gs.map Prod.fst) := (List.perm_ext_iff_of_nodup hf hg).mpr keys
      refine ⟨by simpa using perm.length_eq, ?_⟩
      rintro ⟨key, a⟩ mem
      obtain ⟨b, hb⟩ := mem_keys_iff.mp ((keys key).mp (List.mem_map.mpr ⟨_, mem, rfl⟩))
      exact ⟨b, hb, related a b (.field (find_of_mem hf mem) hb)⟩

theorem sameItems_iff : sameItems as bs = true ↔ List.Forall₂ (fun a b => same a b = true) as bs := by
  induction as generalizing bs with
  | nil => cases bs <;> simp [sameItems]
  | cons a as ih => cases bs <;> simp [sameItems, ih]

theorem matchesItems_iff : matchesItems as bs = true ↔ List.Forall₂ (fun a b => matchesText a b = true) as bs := by
  induction as generalizing bs with
  | nil => cases bs <;> simp [matchesItems]
  | cons a as ih => cases bs <;> simp [matchesItems, ih]

theorem sameFields_iff {fs gs : List (String × Value)} : sameFields fs gs = true ↔
    ∀ field ∈ fs, ∃ b, Fields.find? field.1 gs = some b ∧ same field.2 b = true := by
  induction fs with
  | nil => simp [sameFields]
  | cons field fs ih =>
    obtain ⟨key, a⟩ := field
    rw [List.forall_mem_cons, ← ih, sameFields, Bool.and_eq_true]
    cases Fields.find? key gs <;> simp

theorem matchesFields_iff {fs gs : List (String × Value)} : matchesFields fs gs = true ↔
    ∀ field ∈ fs, ∃ b, Fields.find? field.1 gs = some b ∧ matchesText field.2 b = true := by
  induction fs with
  | nil => simp [matchesFields]
  | cons field fs ih =>
    obtain ⟨key, a⟩ := field
    rw [List.forall_mem_cons, ← ih, matchesFields, Bool.and_eq_true]
    cases Fields.find? key gs <;> simp

end Containers

def isContainer : Value → Bool
  | array _ => true
  | object _ => true
  | _ => false

section Containers

variable {v w : Value}

theorem sameShape_array {as bs : List Value} : SameShape (array as) (array bs) ↔ as.length = bs.length :=
  ⟨fun | .array length => length, .array⟩

theorem same_container (hv : v.KeysOnce) (hw : w.KeysOnce) (container : v.isContainer = true) :
    same v w = true ↔ SameShape v w ∧ ∀ a b, Facing v w a b → same a b = true := by
  cases v with
  | array as =>
    cases w with
    | array bs => exact sameItems_iff.trans (forall₂_iff_facing.trans (and_congr_left' sameShape_array.symm))
    | _ => exact iff_of_false nofun fun h => nomatch h.1
  | object fs =>
    cases w with
    | object gs =>
      refine Iff.trans ?_ (found_iff_facing hv hw)
      rw [same, Bool.and_eq_true, beq_iff_eq, sameFields_iff]
    | _ => exact iff_of_false nofun fun h => nomatch h.1
  | _ => cases container

theorem matchesText_container (hv : v.KeysOnce) (hw : w.KeysOnce) (container : v.isContainer = true) :
    matchesText v w = true ↔ SameShape v w ∧ ∀ a b, Facing v w a b → matchesText a b = true := by
  cases v with
  | array as =>
    cases w with
    | array bs => exact matchesItems_iff.trans (forall₂_iff_facing.trans (and_congr_left' sameShape_array.symm))
    | _ => exact iff_of_false nofun fun h => nomatch h.1
  | object fs =>
    cases w with
    | object gs =>
      refine Iff.trans ?_ (found_iff_facing hv hw)
      rw [matchesText, Bool.and_eq_true, beq_iff_eq, matchesFields_iff]
    | _ => exact iff_of_false nofun fun h => nomatch h.1
  | _ => cases container

theorem SameShape.isContainer (h : SameShape v w) : v.isContainer = true := by
  cases h <;> rfl

end Containers

/-! ## Alike -/

/-- The same scalar, or containers of one shape with parts that are alike. Zeros are the same whatever their sign. -/
inductive Alike : Value → Value → Prop
  | null : Alike null null
  | bool (b : Bool) : Alike (bool b) (bool b)
  | number {x y : Float} : (x == y) = true → Alike (number x) (number y)
  | string (s : String) : Alike (string s) (string s)
  | dateTime (t : Instant) : Alike (dateTime t) (dateTime t)
  | container {v w : Value} : SameShape v w → (∀ a b, Facing v w a b → Alike a b) → Alike v w

section Alike

variable {v w u : Value}

theorem alike_container (container : v.isContainer = true) :
    Alike v w ↔ SameShape v w ∧ ∀ a b, Facing v w a b → Alike a b := by
  refine ⟨fun h => ?_, fun h => .container h.1 h.2⟩
  cases h with
  | container shape facing => exact ⟨shape, facing⟩
  | _ => cases container

theorem Alike.symm (h : Alike v w) : Alike w v := by
  induction h with
  | null => exact .null
  | bool b => exact .bool b
  | number same => exact .number (Double.beq_symm same)
  | string s => exact .string s
  | dateTime t => exact .dateTime t
  | container shape _ ih => exact .container shape.symm fun a b facing => ih b a facing.swap

theorem Alike.trans (h : Alike v w) (h' : Alike w u) : Alike v u := by
  induction h generalizing u with
  | number same =>
    cases h' with
    | number same' => exact .number (Double.beq_trans same same')
    | container shape _ => nomatch shape
  | container shape _ ih =>
    obtain ⟨shape', parts⟩ := (alike_container shape.symm.isContainer).mp h'
    refine .container (shape.trans shape') fun a c facing => ?_
    obtain ⟨b, left, right⟩ := facing.between shape
    exact ih a b left (parts b c right)
  | _ => exact h'

/-- Without NaN, every value is like itself. -/
theorem alike_self (h : Everywhere (fun v => ¬ v.IsNaN) v) : Alike v v := by
  induction h with
  | @intro v number _ ih =>
    have parts (a b : Value) (facing : Facing v v a b) : Alike a b := facing.eq ▸ ih a facing.left
    cases v with
    | null => exact .null
    | bool b => exact .bool b
    | number x =>
      refine .number (Float.beq_self_iff.mpr ?_)
      rintro rfl
      exact number ⟨_, rfl, by decide +kernel⟩
    | string s => exact .string s
    | dateTime t => exact .dateTime t
    | array as => exact .container (.array rfl) parts
    | object fs => exact .container (.object fun _ => Iff.rfl) parts

theorem same_scalar (scalar : v.isContainer = false) : same v w = true ↔ Alike v w := by
  constructor
  · intro h
    cases v with
    | null => cases w with
      | null => exact .null
      | _ => cases h
    | bool x => cases w with
      | bool y => exact beq_iff_eq.mp h ▸ .bool x
      | _ => cases h
    | number x => cases w with
      | number y => exact .number h
      | _ => cases h
    | string s => cases w with
      | string t => exact beq_iff_eq.mp h ▸ .string s
      | _ => cases h
    | dateTime t => cases w with
      | dateTime u => exact beq_iff_eq.mp h ▸ .dateTime t
      | _ => cases h
    | array _ | object _ => cases scalar
  · intro h
    cases h with
    | null => rfl
    | bool b => exact beq_self_eq_true b
    | number same => exact same
    | string s => exact beq_self_eq_true s
    | dateTime t => exact beq_self_eq_true t
    | container shape _ => exact absurd (shape.isContainer.symm.trans scalar) nofun

/-- What the library counts and looks up says whether values are alike. -/
theorem same_iff (hv : v.Keyed) (hw : w.Keyed) : same v w = true ↔ Alike v w := by
  induction hv generalizing w with
  | @intro v keys _ ih =>
    rcases container : v.isContainer with _ | _
    · exact same_scalar container
    · rw [same_container keys hw.here container, alike_container container]
      refine and_congr_right fun _ => forall₂_congr fun a b => forall_congr' fun facing => ?_
      exact ih a facing.left (hw.part b facing.right)

end Alike

/-! ## Texts and instants -/

def isInstant : Value → Bool
  | dateTime _ => true
  | _ => false

def Timeless (v : Value) : Prop := Everywhere (fun v => v.isInstant = false) v

instance : DecidablePred Timeless := decideEverywhere _

/-- A text on the left stands where an instant stands on the right, at some depth. -/
inductive TextFacesInstant : Value → Value → Prop
  | here {s : String} {t : Instant} : TextFacesInstant (string s) (dateTime t)
  | part {v w a b : Value} : Facing v w a b → TextFacesInstant a b → TextFacesInstant v w

section Matching

variable {v w : Value}

theorem not_faces_of_timeless (h : w.Timeless) : ¬ TextFacesInstant v w := by
  intro faces
  induction faces with
  | here => exact absurd h.here nofun
  | part facing _ ih => exact ih (h.part _ facing.right)

theorem matchesText_scalar (scalar : v.isContainer = false) (none : ¬ TextFacesInstant w v) :
    matchesText v w = same v w := by
  cases v with
  | dateTime t => cases w with
    | string s => exact absurd .here none
    | _ => rfl
  | array _ | object _ => cases scalar
  | _ => rfl

/-- A text on the left matches no instant. -/
theorem not_faces_of_matchesText (hv : v.Keyed) (hw : w.Keyed) (h : matchesText v w = true) : ¬ TextFacesInstant v w := by
  intro faces
  induction faces with
  | here => cases h
  | @part v w a b facing _ ih =>
    have container : v.isContainer = true := by cases facing <;> rfl
    obtain ⟨-, parts⟩ := (matchesText_container hv.here hw.here container).mp h
    exact ih (hv.part _ facing.left) (hw.part _ facing.right) (parts _ _ facing)

theorem matchesText_of_alike (hv : v.Keyed) (hw : w.Keyed) (h : Alike v w) : matchesText v w = true := by
  induction h with
  | container shape _ ih =>
    refine (matchesText_container hv.here hw.here shape.isContainer).mpr ⟨shape, fun a b facing => ?_⟩
    exact ih a b facing (hv.part a facing.left) (hw.part b facing.right)
  | number same => exact same
  | null => rfl
  | bool b => exact beq_self_eq_true b
  | string s => exact beq_self_eq_true s
  | dateTime t => exact beq_self_eq_true t

theorem alike_of_matchesText (hv : v.Keyed) (hw : w.Keyed) (h : matchesText v w = true) (none : ¬ TextFacesInstant w v) :
    Alike v w := by
  induction hv generalizing w with
  | @intro v keys _ ih =>
    rcases container : v.isContainer with _ | _
    · exact (same_scalar container).mp ((matchesText_scalar container none).symm.trans h)
    · obtain ⟨shape, parts⟩ := (matchesText_container keys hw.here container).mp h
      refine .container shape fun a b facing => ?_
      exact ih a facing.left (hw.part b facing.right) (parts a b facing) fun faces => none (.part facing.swap faces)

/-- Values match from the left where they are equal and the instants are on the left. -/
theorem matchesText_iff (hv : v.Keyed) (hw : w.Keyed) :
    matchesText v w = true ↔ equals v w = true ∧ ¬ TextFacesInstant v w := by
  constructor
  · intro h
    exact ⟨Bool.or_eq_true_iff.mpr (.inl h), not_faces_of_matchesText hv hw h⟩
  · rintro ⟨h, none⟩
    rcases Bool.or_eq_true_iff.mp h with h | h
    · exact h
    · exact matchesText_of_alike hv hw (alike_of_matchesText hw hv h none).symm

theorem equals_symm (v w : Value) : equals v w = equals w v := Bool.or_comm _ _

theorem equals_of_matchesText {a b : Value} (h : matchesText a b = true) : equals a b = true :=
  Bool.or_eq_true_iff.mpr (.inl h)

/-- Containers match from the left where their parts are equal with the instants on the left. -/
theorem matchesText_of_parts (hv : v.Keyed) (hw : w.Keyed) (shape : SameShape v w)
    (parts : ∀ a b, Facing v w a b → equals a b = true) (none : ¬ TextFacesInstant v w) : matchesText v w = true := by
  refine (matchesText_container hv.here hw.here shape.isContainer).mpr ⟨shape, fun a b facing => ?_⟩
  refine (matchesText_iff (hv.part a facing.left) (hw.part b facing.right)).mpr ⟨parts a b facing, fun faces => ?_⟩
  exact none (.part facing faces)

end Matching

/-! ## Equality -/

def NaNFree (v : Value) : Prop := Everywhere (fun v => ¬ v.IsNaN) v

theorem isNaN_iff {v : Value} : v.IsNaN ↔ v.number?.any Float.isNaN = true := by
  cases v <;> simp [IsNaN, number?]

instance : DecidablePred NaNFree := @decideEverywhere _ fun _ => @instDecidableNot _ (decidable_of_iff _ isNaN_iff.symm)

/-- A value without instants and NaN, with each key once. -/
structure Ordinary (v : Value) : Prop where
  keyed : v.Keyed
  timeless : v.Timeless
  numbers : v.NaNFree

theorem equals_iff_alike {v w : Value} (hv : v.Ordinary) (hw : w.Ordinary) : equals v w = true ↔ Alike v w := by
  constructor
  · intro h
    refine alike_of_matchesText hv.keyed hw.keyed ?_ (not_faces_of_timeless hv.timeless)
    exact (matchesText_iff hv.keyed hw.keyed).mpr ⟨h, not_faces_of_timeless hw.timeless⟩
  · intro h
    exact equals_of_matchesText (matchesText_of_alike hv.keyed hw.keyed h)

/-- Without instants and NaN, `==` is structural equality in which the order of keys does not matter. -/
theorem equals_structural :
    (∀ v w : Value, v.Ordinary → w.Ordinary → equals v w = same v w ∧ (equals v w = true ↔ Alike v w)) ∧
    Equivalence fun v w : { v : Value // v.Ordinary } => equals v.1 w.1 = true := by
  refine ⟨fun v w hv hw => ⟨?_, equals_iff_alike hv hw⟩, ?_, ?_, ?_⟩
  · rw [Bool.eq_iff_iff, equals_iff_alike hv hw, same_iff hv.keyed hw.keyed]
  · rintro ⟨v, hv⟩
    exact (equals_iff_alike hv hv).mpr (alike_self hv.numbers)
  · rintro ⟨v, hv⟩ ⟨w, hw⟩ h
    exact (equals_symm w v).trans h
  · rintro ⟨v, hv⟩ ⟨w, hw⟩ ⟨u, hu⟩ h h'
    refine (equals_iff_alike hv hu).mpr ?_
    exact ((equals_iff_alike hv hw).mp h).trans ((equals_iff_alike hw hu).mp h')

/-- Fields in another order, with a list under one key. -/
theorem equals_structural_fields :
    (object [("x", array [number 1, null]), ("y", string "s")]).Ordinary ∧
    (object [("y", string "s"), ("x", array [number 1, null])]).Ordinary ∧
    equals (object [("x", array [number 1, null]), ("y", string "s")])
      (object [("y", string "s"), ("x", array [number 1, null])]) = true := by
  have first : (object [("x", array [number 1, null]), ("y", string "s")]).Ordinary :=
    ⟨by decide, by decide, by decide +kernel⟩
  have second : (object [("y", string "s"), ("x", array [number 1, null])]).Ordinary :=
    ⟨by decide, by decide, by decide +kernel⟩
  have counted : same (object [("x", array [number 1, null]), ("y", string "s")])
      (object [("y", string "s"), ("x", array [number 1, null])]) = true := by decide +kernel
  exact ⟨first, second, (equals_structural.1 _ _ first second).1.trans counted⟩

/-- The items of two arrays, or the fields of two objects, decide whether those are equal, unless texts in
    either face instants in the other. -/
theorem equals_parts {v w : Value} (hv : v.Keyed) (hw : w.Keyed) (shape : SameShape v w) :
    equals v w = true ↔
      (∀ a b, Facing v w a b → equals a b = true) ∧ ¬ (TextFacesInstant v w ∧ TextFacesInstant w v) := by
  have directed {v w : Value} (hv : v.Keyed) (hw : w.Keyed) (shape : SameShape v w) (h : matchesText v w = true) :
      (∀ a b, Facing v w a b → equals a b = true) ∧ ¬ TextFacesInstant v w := by
    obtain ⟨-, parts⟩ := (matchesText_container hv.here hw.here shape.isContainer).mp h
    exact ⟨fun a b facing => equals_of_matchesText (parts a b facing), not_faces_of_matchesText hv hw h⟩
  constructor
  · intro h
    rcases Bool.or_eq_true_iff.mp h with h | h
    · obtain ⟨parts, none⟩ := directed hv hw shape h
      exact ⟨parts, fun both => none both.1⟩
    · obtain ⟨parts, none⟩ := directed hw hv shape.symm h
      exact ⟨fun a b facing => (equals_symm a b).trans (parts b a facing.swap), fun both => none both.2⟩
  · rintro ⟨parts, notBoth⟩
    by_cases faces : TextFacesInstant v w
    · rw [equals_symm]
      refine equals_of_matchesText (matchesText_of_parts hw hv shape.symm (fun b a facing => ?_) fun back => ?_)
      · exact (equals_symm b a).trans (parts a b facing.swap)
      · exact notBoth ⟨faces, back⟩
    · exact equals_of_matchesText (matchesText_of_parts hv hw shape parts faces)

/-- The first instant of 2024. -/
def newYear : Instant := ⟨1704067200, 0⟩

/-- An instant on the left only. -/
theorem equals_parts_left :
    (array [dateTime newYear, number 1]).Keyed ∧ (array [string "2024-01-01T00:00:00Z", number 1]).Keyed ∧
    SameShape (array [dateTime newYear, number 1]) (array [string "2024-01-01T00:00:00Z", number 1]) ∧
    equals (array [dateTime newYear, number 1]) (array [string "2024-01-01T00:00:00Z", number 1]) = true := by
  have first : (array [dateTime newYear, number 1]).Keyed := by decide
  have second : (array [string "2024-01-01T00:00:00Z", number 1]).Keyed := by decide
  have shape : SameShape (array [dateTime newYear, number 1]) (array [string "2024-01-01T00:00:00Z", number 1]) :=
    .array rfl
  have parts : ∀ a b, Facing (array [dateTime newYear, number 1])
      (array [string "2024-01-01T00:00:00Z", number 1]) a b → equals a b = true :=
    (forall₂_iff_facing.mp (.cons (by decide +kernel) (.cons (by decide +kernel) .nil))).2
  have none : ¬ TextFacesInstant (array [dateTime newYear, number 1]) (array [string "2024-01-01T00:00:00Z", number 1]) :=
    not_faces_of_timeless (by decide)
  exact ⟨first, second, shape, (equals_parts first second shape).mpr ⟨parts, fun both => none both.1⟩⟩

/-- An instant on the left beside a text that faces one: either direction fails at one of the items. -/
theorem equals_both_sides : ¬ ∀ v w : Value, v.Keyed → w.Keyed → SameShape v w →
    (equals v w = true ↔ ∀ a b, Facing v w a b → equals a b = true) := by
  intro congruent
  have parts : ∀ a b, Facing (array [dateTime newYear, string "2024-01-01T00:00:00Z"])
      (array [string "2024-01-01T00:00:00Z", dateTime newYear]) a b → equals a b = true :=
    (forall₂_iff_facing.mp (.cons (by decide +kernel) (.cons (by decide +kernel) .nil))).2
  have first : (array [dateTime newYear, string "2024-01-01T00:00:00Z"]).Keyed := by decide
  have second : (array [string "2024-01-01T00:00:00Z", dateTime newYear]).Keyed := by decide
  have whole := (congruent _ _ first second (.array rfl)).mpr parts
  exact absurd whole (by decide +kernel)

end Groq.Value
