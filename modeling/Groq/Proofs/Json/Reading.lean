/-
  Groq.Proofs.Json.Reading — what the machine makes of tokens.

  `Leads` says that tokens take the machine from one state to another. The tokens of a value complete it
  in whatever is open around it, as long as the bound on nesting leaves room (`Denotes`).
  Proved: between brackets, the tokens of items with commas between them denote the array of the items
  (`denotes_array`), and those of members the object, if their keys differ (`denotes_object`).
-/

import Groq.Json.Reader
import Groq.Proofs.Fields
import Mathlib.Data.List.Forall2

namespace Groq.Json

/-- The tokens of each piece, with a comma between them. -/
def commas : List (List Token) → List Token
  | [] => []
  | [piece] => piece
  | piece :: rest => piece ++ .comma :: commas rest

theorem commas_begin (t : Token) (tokens : List Token) (pieces : List (List Token)) :
    ∃ rest, commas ((t :: tokens) :: pieces) = t :: rest := by
  cases pieces with
  | nil => exact ⟨tokens, rfl⟩
  | cons next pieces => exact ⟨tokens ++ .comma :: commas (next :: pieces), rfl⟩

theorem commas_cons (piece next : List Token) (rest : List (List Token)) :
    commas (piece :: next :: rest) = piece ++ .comma :: commas (next :: rest) := rfl

section Leads

variable {limit depth : Nat} {r r' r'' : Reading} {tokens tokens' : List Token} {t : Token}

/-- The tokens take the machine from one state to the other. -/
def Leads (limit : Nat) (r : Reading) (tokens : List Token) (r' : Reading) : Prop :=
  tokens.foldlM (Reading.step? limit) r = some r'

theorem Leads.cons (h : r.step? limit t = some r') (h' : Leads limit r' tokens r'') :
    Leads limit r (t :: tokens) r'' := by
  unfold Leads
  rw [List.foldlM_cons, h]
  exact h'

theorem Leads.trans (h : Leads limit r tokens r') (h' : Leads limit r' tokens' r'') :
    Leads limit r (tokens ++ tokens') r'' := by
  unfold Leads at *
  rw [List.foldlM_append, h]
  exact h'

theorem leads_token (h : r.step? limit t = some r') : Leads limit r [t] r' := .cons h rfl

/-- Nothing follows a complete text. -/
theorem done_of_leads {j j' : Json} (h : Leads limit r tokens (.done j))
    (h' : Leads limit r (tokens ++ tokens') (.done j')) : tokens' = [] ∧ j' = j := by
  unfold Leads at *
  rw [List.foldlM_append, h] at h'
  cases tokens' with
  | nil =>
    cases h'
    exact ⟨rfl, rfl⟩
  | cons t tokens =>
    rw [Option.bind_eq_bind, Option.bind_some, List.foldlM_cons] at h'
    cases t <;> cases h'

end Leads

/-- The tokens complete the tree where containers of this depth still fit, and do not close an array. -/
structure Denotes (limit depth : Nat) (tokens : List Token) (j : Json) : Prop where
  leads : ∀ opened, opened.length + depth ≤ limit → Leads limit (.value opened) tokens (.complete j opened)
  begins : ∃ t rest, tokens = t :: rest ∧ t ≠ .endArray

/-- A key and its value. -/
def DenotesMember (limit depth : Nat) (tokens : List Token) (member : String × Json) : Prop :=
  ∃ value, tokens = .string member.1 :: .colon :: value ∧ Denotes limit depth value member.2

section Containers

variable {limit depth : Nat} {t : Token} {j : Json} {opened : List Frame} {pieces : List (List Token)}
  {items : List Json} {members : List (String × Json)}

theorem denotes_token (h : ∀ opened, Reading.begin? limit opened t = some (.complete j opened))
    (starts : t ≠ .endArray) : Denotes limit depth [t] j :=
  ⟨fun opened _ => leads_token (h opened), t, [], rfl, starts⟩

theorem Denotes.mono {depth' : Nat} {tokens : List Token} (h : Denotes limit depth tokens j) (le : depth ≤ depth') :
    Denotes limit depth' tokens j :=
  ⟨fun opened room => h.leads opened (by omega), h.begins⟩

/-! ## Arrays -/

/-- From the first item on; by induction on the items, those before it being done. -/
theorem items_lead (h : List.Forall₂ (Denotes limit depth) pieces items) (some : pieces ≠ [])
    (room : opened.length + 1 + depth ≤ limit) (done : List Json) :
    Leads limit (.value (.array done :: opened)) (commas pieces ++ [.endArray])
      (.complete (.array (done.reverse ++ items)) opened) := by
  induction h generalizing done with
  | nil => exact absurd rfl some
  | @cons piece item pieces items first others ih =>
    have complete := first.leads (.array done :: opened) room
    have list : done.reverse ++ item :: items = (item :: done).reverse ++ items := by
      rw [List.reverse_cons, List.append_assoc]
      rfl
    cases others with
    | nil => exact complete.trans (leads_token (by rw [list, List.append_nil]; rfl))
    | cons next rest =>
      rw [commas_cons, List.append_assoc, list]
      exact complete.trans (.cons rfl (ih nofun (item :: done)))

/-- A token that does not end the array begins its first item. -/
theorem leads_first {tokens : List Token} {r : Reading} (begins : t ≠ .endArray)
    (h : Leads limit (.value (.array [] :: opened)) (t :: tokens) r) :
    Leads limit (.valueOrEnd opened) (t :: tokens) r := by
  cases t with
  | endArray => exact absurd rfl begins
  | _ => exact h

theorem denotes_array (h : List.Forall₂ (Denotes limit depth) pieces items) :
    Denotes limit (depth + 1) (.beginArray :: commas pieces ++ [.endArray]) (.array items) := by
  refine ⟨fun opened room => ?_, _, _, rfl, nofun⟩
  have fits : opened.length < limit := by omega
  refine .cons (if_pos fits) ?_
  cases h with
  | nil => exact leads_token rfl
  | @cons piece item pieces items first others =>
    have inside := items_lead (.cons first others) nofun (by omega : opened.length + 1 + depth ≤ limit) []
    obtain ⟨t, tokens, rfl, begins⟩ := first.begins
    obtain ⟨rest, opening⟩ := commas_begin t tokens pieces
    rw [opening] at inside ⊢
    exact leads_first begins inside

/-! ## Objects -/

/-- From the first key on; by induction on the members, those before it being done. -/
theorem members_lead (h : List.Forall₂ (DenotesMember limit depth) pieces members) (some : pieces ≠ [])
    (room : opened.length + 1 + depth ≤ limit) (done : List (String × Json))
    (keys : ((done ++ members).map Prod.fst).Nodup) :
    Leads limit (.nextKey opened done) (commas pieces ++ [.endObject])
      (.complete (.object (done ++ members)) opened) := by
  induction h generalizing done with
  | nil => exact absurd rfl some
  | @cons piece member pieces members first others ih =>
    obtain ⟨key, value⟩ := member
    obtain ⟨tokens, rfl, denotes⟩ := first
    have fresh : key ∉ done.map Prod.fst := by
      rw [List.map_append, List.nodup_append] at keys
      exact fun mem => keys.2.2 _ mem _ List.mem_cons_self rfl
    have list : done ++ (key, value) :: members = done ++ [(key, value)] ++ members := by
      rw [List.append_assoc]
      rfl
    have complete : Leads limit (.nextKey opened done) (.string key :: .colon :: tokens)
        (.commaOrEnd (.object (done ++ [(key, value)]) key) opened) := by
      have inside := denotes.leads (.object done key :: opened) room
      rw [← Fields.insert_fresh fresh]
      exact .cons rfl (.cons rfl inside)
    rw [list] at keys ⊢
    cases others with
    | nil => exact complete.trans (leads_token (by rw [List.append_nil]; rfl))
    | cons next rest =>
      rw [commas_cons, List.append_assoc]
      exact complete.trans (.cons rfl (ih nofun (done ++ [(key, value)]) keys))

theorem denotes_object (h : List.Forall₂ (DenotesMember limit depth) pieces members)
    (keys : (members.map Prod.fst).Nodup) :
    Denotes limit (depth + 1) (.beginObject :: commas pieces ++ [.endObject]) (.object members) := by
  refine ⟨fun opened room => ?_, _, _, rfl, nofun⟩
  have fits : opened.length < limit := by omega
  refine .cons (if_pos fits) ?_
  cases h with
  | nil => exact leads_token rfl
  | @cons piece member pieces members first others =>
    have inside := members_lead (.cons first others) nofun (by omega : opened.length + 1 + depth ≤ limit) [] keys
    -- a key may stand where the object might have ended
    obtain ⟨tokens, rfl, -⟩ := first
    obtain ⟨rest, opening⟩ := commas_begin (.string member.1) (.colon :: tokens) pieces
    rw [opening] at inside ⊢
    exact inside

end Containers

end Groq.Json
