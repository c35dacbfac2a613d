/-
  Groq.Proofs.Fields — fields written one after the other.

  An entry that is written replaces the value of its key where the key is there, and stands at the end
  otherwise (`insert_keys`, `find_insert`). So of several entries for a key the first decides where it
  stands and the last what it holds (`merge_keys`, `find_merge`).
  Proved: fields written over fields written over fields are the same however they are grouped, if each key
  stands once among those in the middle (`merge_assoc`).
-/

import Groq.Fields

namespace Groq.Fields

variable {α : Type}

/-! ## One entry -/

theorem mem_of_lookup {κ : Type} [BEq κ] [LawfulBEq κ] {key : κ} {value : α} {entries : List (κ × α)}
    (h : entries.lookup key = some value) : (key, value) ∈ entries := by
  obtain ⟨front, behind, split, -⟩ := List.lookup_eq_some_iff.mp h
  rw [split]
  exact List.mem_append_right front List.mem_cons_self

theorem find_insert (name key : String) (value : α) (fields : List (String × α)) :
    find? name (insert key value fields) = if key = name then some value else find? name fields := by
  induction fields with
  | nil => rfl
  | cons entry rest ih =>
    obtain ⟨other, old⟩ := entry
    by_cases hk : other = key
    · subst hk
      by_cases hn : other = name <;> simp [insert, find?, hn]
    · by_cases hn : other = name
      · subst hn
        simp [insert, find?, hk, Ne.symm hk]
      · simp [insert, find?, hk, hn, ih]

theorem insert_keys (key : String) (value : α) (fields : List (String × α)) :
    (insert key value fields).map Prod.fst =
      if key ∈ fields.map Prod.fst then fields.map Prod.fst else fields.map Prod.fst ++ [key] := by
  induction fields with
  | nil => rfl
  | cons field rest ih =>
    unfold insert
    by_cases same : field.1 = key
    · simp [same]
    · have other : key ≠ field.1 := Ne.symm same
      rw [if_neg same, List.map_cons, ih, List.map_cons]
      by_cases mem : key ∈ rest.map Prod.fst <;> simp [mem, other]

theorem nodup_insert {fields : List (String × α)} (once : (fields.map Prod.fst).Nodup) (key : String) (value : α) :
    ((insert key value fields).map Prod.fst).Nodup := by
  rw [insert_keys]
  split
  · exact once
  · rename_i fresh
    refine List.nodup_append.mpr ⟨once, List.pairwise_singleton _ _, fun name mem other single => ?_⟩
    rw [List.mem_singleton.mp single]
    rintro rfl
    exact fresh mem

theorem mem_insert_keys {name key : String} {value : α} {fields : List (String × α)} :
    name ∈ (insert key value fields).map Prod.fst ↔ name = key ∨ name ∈ fields.map Prod.fst := by
  rw [insert_keys]
  split
  · rename_i mem
    constructor
    · exact Or.inr
    · rintro (rfl | h)
      · exact mem
      · exact h
  · rw [List.mem_append, List.mem_singleton, or_comm]

theorem insert_fresh {key : String} {value : α} {fields : List (String × α)} (h : key ∉ fields.map Prod.fst) :
    insert key value fields = fields ++ [(key, value)] := by
  induction fields with
  | nil => rfl
  | cons field rest ih =>
    obtain ⟨different, others⟩ := not_or.mp (mt List.mem_cons.mpr h)
    unfold insert
    rw [if_neg (Ne.symm different), ih others]
    rfl

/-- What is written last for a key counts. -/
theorem insert_insert (key : String) (value old : α) (fields : List (String × α)) :
    insert key value (insert key old fields) = insert key value fields := by
  induction fields with
  | nil => simp [insert]
  | cons field rest ih =>
    by_cases same : field.1 = key
    · simp [insert, same]
    · simp [insert, same, ih]

/-- Two keys may be written in either order where the one is there already: it keeps its place. -/
theorem insert_comm {key other : String} (different : key ≠ other) {fields : List (String × α)}
    (mem : key ∈ fields.map Prod.fst) (value w : α) :
    insert key value (insert other w fields) = insert other w (insert key value fields) := by
  induction fields with
  | nil => cases mem
  | cons field rest ih =>
    by_cases here : field.1 = key
    · simp [insert, here, different]
    · have behind : key ∈ rest.map Prod.fst := (List.mem_cons.mp mem).resolve_left (Ne.symm here)
      by_cases same : field.1 = other
      · simp [insert, same, Ne.symm different]
      · simp [insert, here, same, ih behind]

/-! ## Entries one after the other -/

theorem merge_cons (fields : List (String × α)) (entry : String × α) (entries : List (String × α)) :
    merge fields (entry :: entries) = merge (insert entry.1 entry.2 fields) entries := rfl

theorem merge_append (fields entries more : List (String × α)) :
    merge fields (entries ++ more) = merge (merge fields entries) more := List.foldl_append

/-- The entry written last counts. -/
theorem find_merge (name : String) (fields entries : List (String × α)) :
    find? name (merge fields entries) = (entries.reverse.lookup name).or (find? name fields) := by
  induction entries generalizing fields with
  | nil => rfl
  | cons entry rest ih =>
    obtain ⟨key, value⟩ := entry
    have next : merge fields ((key, value) :: rest) = merge (insert key value fields) rest := rfl
    rw [next, ih, find_insert, List.reverse_cons, List.lookup_append, Option.or_assoc, List.lookup_cons]
    by_cases hk : key = name
    · subst hk
      simp
    · have hb : (name == key) = false := beq_eq_false_iff_ne.mpr (Ne.symm hk)
      simp [hk, hb]

theorem nodup_merge {fields : List (String × α)} (once : (fields.map Prod.fst).Nodup) (entries : List (String × α)) :
    ((merge fields entries).map Prod.fst).Nodup := by
  induction entries generalizing fields with
  | nil => exact once
  | cons entry rest ih => exact ih (nodup_insert once entry.1 entry.2)

/-- The keys that are there stay in front, and behind them each new key stands where it came first. -/
theorem merge_keys (fields entries : List (String × α)) :
    (merge fields entries).map Prod.fst =
      fields.map Prod.fst ++ ((entries.map Prod.fst).removeAll (fields.map Prod.fst)).eraseDups := by
  induction entries generalizing fields with
  | nil => simp [merge, List.removeAll]
  | cons entry rest ih =>
    rw [merge_cons, ih, insert_keys, List.map_cons]
    by_cases mem : entry.1 ∈ fields.map Prod.fst
    · have known : (entry.1 :: rest.map Prod.fst).removeAll (fields.map Prod.fst) =
          (rest.map Prod.fst).removeAll (fields.map Prod.fst) := by
        simp only [List.removeAll]
        rw [List.filter_cons_of_neg (by simpa using mem)]
      rw [if_pos mem, known]
    · have fresh : (entry.1 :: rest.map Prod.fst).removeAll (fields.map Prod.fst) =
          entry.1 :: (rest.map Prod.fst).removeAll (fields.map Prod.fst) := by
        simp only [List.removeAll]
        rw [List.filter_cons_of_pos (by simpa using mem)]
      have others : (rest.map Prod.fst).removeAll (fields.map Prod.fst ++ [entry.1]) =
          ((rest.map Prod.fst).removeAll (fields.map Prod.fst)).filter fun key => !key == entry.1 := by
        simp only [List.removeAll, List.filter_filter]
        refine List.filter_congr fun key _ => ?_
        rw [Bool.eq_iff_iff]
        simp [and_comm]
      rw [if_neg mem, fresh, others, List.eraseDups_cons, List.append_assoc]
      rfl

/-- Entries for new keys, each once, come behind. -/
theorem merge_fresh {fields entries : List (String × α)} (apart : ((fields ++ entries).map Prod.fst).Nodup) :
    merge fields entries = fields ++ entries := by
  induction entries generalizing fields with
  | nil => simp [merge]
  | cons entry rest ih =>
    have fresh : entry.1 ∉ fields.map Prod.fst := by
      rw [List.map_append, List.nodup_append] at apart
      exact fun mem => apart.2.2 _ mem _ List.mem_cons_self rfl
    rw [merge_cons, insert_fresh fresh, ih]
    · simp
    · simpa using apart

/-- An entry for a key that is there may be written before others or after them, if it is not among them. -/
theorem insert_merge {key : String} {fields entries : List (String × α)} (mem : key ∈ fields.map Prod.fst)
    (absent : key ∉ entries.map Prod.fst) (value : α) :
    insert key value (merge fields entries) = merge (insert key value fields) entries := by
  induction entries generalizing fields with
  | nil => rfl
  | cons entry rest ih =>
    obtain ⟨different, others⟩ := not_or.mp (mt List.mem_cons.mpr absent)
    rw [merge_cons, merge_cons, ih (mem_insert_keys.mpr (.inr mem)) others, insert_comm different mem]

/-- An entry that is written over entries is written over the fields those are written over. -/
theorem merge_insert {entries : List (String × α)} (once : (entries.map Prod.fst).Nodup) (fields : List (String × α))
    (key : String) (value : α) : merge fields (insert key value entries) = insert key value (merge fields entries) := by
  induction entries generalizing fields with
  | nil => rfl
  | cons entry rest ih =>
    obtain ⟨fresh, others⟩ := List.nodup_cons.mp once
    rw [merge_cons]
    by_cases same : entry.1 = key
    · have replaced : insert key value (entry :: rest) = (key, value) :: rest := by
        simp [insert, same]
      subst same
      rw [replaced, merge_cons, insert_merge (mem_insert_keys.mpr (.inl rfl)) fresh, insert_insert]
    · have passed : insert key value (entry :: rest) = entry :: insert key value rest := by
        simp [insert, same]
      rw [passed, merge_cons, ih others]

theorem merge_assoc {entries : List (String × α)} (once : (entries.map Prod.fst).Nodup) (fields more : List (String × α)) :
    merge fields (merge entries more) = merge (merge fields entries) more := by
  induction more generalizing entries with
  | nil => rfl
  | cons entry rest ih => rw [merge_cons, merge_cons, ih (nodup_insert once _ _), merge_insert once]

end Groq.Fields
