/-
  Groq.Proofs.Bytes.Text — text by byte offsets.

  A text is stored in UTF-8 and is cut at byte offsets. A cut is possible only where a character
  begins or the text ends (`cutBytes_eq_some`); there is no character between two other bytes.
  `SameOffset` pairs an offset in characters with the one in bytes, and `Covers` a span with the
  byte range of the same part of the text.
  Proved: between paired offsets every cut is possible and gives the same part of the text
  (`Covers.text`, `Covers.slice`); a span and its range determine each other (`covers_eq`).
-/

import Groq.Query.Surface

namespace Groq.Query

/-- The bytes of a text, each as the character of the same code. -/
def bytes (cs : List Char) : List Char := cs.flatMap fun c => (String.utf8EncodeChar c).map Char.ofUInt8

/-- A text in two at a byte offset. -/
def cutBytes? : List Char → Nat → Option (List Char × List Char)
  | cs, 0 => some ([], cs)
  | [], _ + 1 => none
  | c :: cs, n + 1 =>
    if c.utf8Size ≤ n + 1 then
      (cutBytes? cs (n + 1 - c.utf8Size)).map fun (front, behind) => (c :: front, behind)
    else none

def takeBytes? (cs : List Char) (last : Nat) : Option (List Char) := (cutBytes? cs last).map (·.1)

def dropBytes? (cs : List Char) (first : Nat) : Option (List Char) := (cutBytes? cs first).map (·.2)

def sliceBytes? (cs : List Char) (first last : Nat) : Option (List Char) :=
  if first ≤ last then (dropBytes? cs first).bind fun behind => takeBytes? behind (last - first) else none

/-- A difference of offsets, none below zero. -/
def less? (n m : Nat) : Option Nat := if m ≤ n then some (n - m) else none

/-- A range of the bytes of a text. -/
structure ByteSpan where
  start : Nat
  stop : Nat
  deriving DecidableEq, Hashable, Repr

namespace ByteSpan

variable (source : List Char) (b : ByteSpan)

def length : Nat := b.stop - b.start

def isEmpty : Bool := b.stop ≤ b.start

/-- The range between two offsets relative to this one, in order and within the text. -/
def slice? (first last : Nat) : Option ByteSpan :=
  if first ≤ last ∧ b.start + last ≤ (bytes source).length then some ⟨b.start + first, b.start + last⟩ else none

def tail? (first : Nat) : Option ByteSpan := b.slice? source first b.length

def text? : Option (List Char) := sliceBytes? source b.start b.stop

end ByteSpan

/-! ## Bytes -/

theorem bytes_append (cs x : List Char) : bytes (cs ++ x) = bytes cs ++ bytes x := List.flatMap_append

theorem bytes_cons (c : Char) (cs : List Char) : bytes (c :: cs) = bytes [c] ++ bytes cs := bytes_append [c] cs

theorem length_bytes_single (c : Char) : (bytes [c]).length = c.utf8Size := by
  simp [bytes]

theorem toNat_ofByte (n : Nat) : (Char.ofUInt8 (UInt8.ofNat n)).toNat = n % 256 := by
  show (UInt8.ofNat n).toUInt32.toNat = n % 256
  simp

theorem bytes_single_ascii {c : Char} (ascii : c.toNat < 128) : bytes [c] = [c] := by
  have small : c.val.toNat ≤ 127 := Nat.le_of_lt_succ ascii
  have same : Char.ofUInt8 (UInt8.ofNat c.val.toNat) = c := by
    apply Char.ext
    apply UInt32.toNat_inj.mp
    have code := toNat_ofByte c.val.toNat
    rw [Nat.mod_eq_of_lt (by omega)] at code
    exact code
  simp only [bytes, List.flatMap_cons, List.flatMap_nil, List.append_nil, String.utf8EncodeChar]
  rw [if_pos small]
  exact congrArg (fun c => [c]) same

theorem bytes_ascii {c : Char} (ascii : c.toNat < 128) (cs : List Char) : bytes (c :: cs) = c :: bytes cs := by
  rw [bytes_cons, bytes_single_ascii ascii]
  rfl

/-- The bytes of a character that is not ASCII are not ASCII. -/
theorem bytes_single_other {c : Char} (other : 128 ≤ c.toNat) : ∀ d ∈ bytes [c], 128 ≤ d.toNat := by
  have large : ¬ c.val.toNat ≤ 127 := Nat.not_le.mpr other
  intro d hd
  simp only [bytes, List.flatMap_cons, List.flatMap_nil, List.append_nil, String.utf8EncodeChar] at hd
  rw [if_neg large] at hd
  split at hd
  · simp only [List.map_cons, List.map_nil, List.mem_cons, List.not_mem_nil, or_false] at hd
    rcases hd with rfl | rfl
    all_goals
      rw [toNat_ofByte]
      omega
  split at hd
  · simp only [List.map_cons, List.map_nil, List.mem_cons, List.not_mem_nil, or_false] at hd
    rcases hd with rfl | rfl | rfl
    all_goals
      rw [toNat_ofByte]
      omega
  · simp only [List.map_cons, List.map_nil, List.mem_cons, List.not_mem_nil, or_false] at hd
    rcases hd with rfl | rfl | rfl | rfl
    all_goals
      rw [toNat_ofByte]
      omega

theorem bytes_single_ne_nil (c : Char) : bytes [c] ≠ [] := by
  intro h
  have length := length_bytes_single c
  have pos := c.utf8Size_pos
  rw [h, List.length_nil] at length
  omega

theorem bytes_eq_nil {cs : List Char} : bytes cs = [] ↔ cs = [] := by
  constructor
  · intro h
    rcases cs with _ | ⟨c, cs⟩
    · rfl
    · rw [bytes_cons] at h
      exact absurd (List.append_eq_nil_iff.mp h).1 (bytes_single_ne_nil c)
  · rintro rfl
    rfl

/-- By induction over a text: a character that is its own byte, or one whose bytes are none of them ASCII. -/
theorem bytes_induction {P : List Char → Prop} (nil : P [])
    (ascii : ∀ c cs, c.toNat < 128 → bytes (c :: cs) = c :: bytes cs → P cs → P (c :: cs))
    (other : ∀ c cs d front, 128 ≤ c.toNat → bytes [c] = d :: front → bytes (c :: cs) = d :: front ++ bytes cs →
      (∀ e ∈ d :: front, 128 ≤ e.toNat) → P cs → P (c :: cs)) (cs : List Char) : P cs := by
  induction cs with
  | nil => exact nil
  | cons c cs ih =>
    by_cases h : c.toNat < 128
    · exact ascii c cs h (bytes_ascii h cs) ih
    · have large := Nat.not_lt.mp h
      obtain ⟨d, front, single⟩ := List.exists_cons_of_ne_nil (bytes_single_ne_nil c)
      refine other c cs d front large single ?_ ?_ ih
      · rw [bytes_cons, single]
      · rw [← single]
        exact bytes_single_other large

/-! ## The first byte -/

/-- A character and the first of its bytes. -/
def SameFirst (c d : Char) : Prop := (c.toNat < 128 ∧ d = c) ∨ (128 ≤ c.toNat ∧ 128 ≤ d.toNat)

section First

variable {c d m : Char} (h : SameFirst c d)

include h

theorem SameFirst.is (ascii : m.toNat < 128) : d = m ↔ c = m := by
  rcases h with ⟨-, rfl⟩ | ⟨hc, hd⟩
  · exact Iff.rfl
  · constructor
    · rintro rfl
      omega
    · rintro rfl
      omega

theorem SameFirst.test {p : Char → Bool} (ascii : ∀ c, p c = true → c.toNat < 128) : p d = true ↔ p c = true := by
  rcases h with ⟨-, rfl⟩ | ⟨hc, hd⟩
  · exact Iff.rfl
  · constructor
    · intro hp
      have := ascii d hp
      omega
    · intro hp
      have := ascii c hp
      omega

end First

theorem bytes_first (c : Char) (cs : List Char) : ∃ d rest, bytes (c :: cs) = d :: rest ∧ SameFirst c d := by
  by_cases ascii : c.toNat < 128
  · exact ⟨c, bytes cs, bytes_ascii ascii cs, .inl ⟨ascii, rfl⟩⟩
  · have large := Nat.not_lt.mp ascii
    obtain ⟨d, front, single⟩ := List.exists_cons_of_ne_nil (bytes_single_ne_nil c)
    refine ⟨d, front ++ bytes cs, ?_, .inr ⟨large, bytes_single_other large d ?_⟩⟩
    · rw [bytes_cons, single, List.cons_append]
    · rw [single]
      exact List.mem_cons_self

/-! ## Cuts -/

/-- A text is cut where its front ends in bytes, and nowhere else. -/
theorem cutBytes_eq_some {cs front behind : List Char} {n : Nat} :
    cutBytes? cs n = some (front, behind) ↔ cs = front ++ behind ∧ n = (bytes front).length := by
  constructor
  · intro h
    fun_induction cutBytes? cs n generalizing front with
    | case1 =>
      cases h
      exact ⟨rfl, rfl⟩
    | case2 => cases h
    | case3 c cs n fits ih =>
      obtain ⟨⟨inner, rest⟩, hcut, heq⟩ := Option.map_eq_some_iff.mp h
      cases heq
      obtain ⟨rfl, length⟩ := ih hcut
      refine ⟨rfl, ?_⟩
      rw [bytes_cons, List.length_append, length_bytes_single]
      omega
    | case4 => cases h
  · rintro ⟨rfl, rfl⟩
    induction front with
    | nil =>
      unfold cutBytes?
      rfl
    | cons c front ih =>
      have pos := c.utf8Size_pos
      have length : (bytes (c :: front)).length = c.utf8Size + (bytes front).length := by
        rw [bytes_cons, List.length_append, length_bytes_single]
      obtain ⟨n, hn⟩ : ∃ n, c.utf8Size + (bytes front).length = n + 1 := ⟨c.utf8Size + (bytes front).length - 1, by omega⟩
      have rest : n + 1 - c.utf8Size = (bytes front).length := by omega
      rw [length, hn, List.cons_append, cutBytes?, if_pos (by omega), rest, ih]
      rfl

/-- There is no cut inside the `é`. -/
example : cutBytes? ['é', 'a'] 1 = none ∧ cutBytes? ['é', 'a'] 2 = some (['é'], ['a']) := by decide

theorem takeBytes_front (front behind : List Char) : takeBytes? (front ++ behind) (bytes front).length = some front := by
  unfold takeBytes?
  rw [cutBytes_eq_some.mpr ⟨rfl, rfl⟩]
  rfl

theorem dropBytes_front (front behind : List Char) : dropBytes? (front ++ behind) (bytes front).length = some behind := by
  unfold dropBytes?
  rw [cutBytes_eq_some.mpr ⟨rfl, rfl⟩]
  rfl

theorem sliceBytes_middle (front middle behind : List Char) : sliceBytes? (front ++ (middle ++ behind))
    (bytes front).length (bytes (front ++ middle)).length = some middle := by
  have length : (bytes (front ++ middle)).length = (bytes front).length + (bytes middle).length := by
    rw [bytes_append, List.length_append]
  unfold sliceBytes?
  rw [length, if_pos (Nat.le_add_right _ _), dropBytes_front, Nat.add_sub_cancel_left]
  exact takeBytes_front middle behind

/-! ## Offsets -/

/-- An offset in characters and the one in bytes. -/
def SameOffset (cs : List Char) (n k : Nat) : Prop := ∃ front behind, cs = front ++ behind ∧ n = front.length ∧
  k = (bytes front).length

/-- A span, and the range of the bytes of the same part of the text. -/
def Covers (source : List Char) (s : Span) (b : ByteSpan) : Prop := ∃ before after,
  source = before ++ (s.chars ++ after) ∧ s.start = before.length ∧
    b = ⟨(bytes before).length, (bytes (before ++ s.chars)).length⟩

section Offsets

variable {source cs : List Char} {n m k j : Nat} {s : Span} {b : ByteSpan}

theorem sameOffset_zero : SameOffset cs 0 0 := ⟨[], cs, rfl, rfl, rfl⟩

theorem sameOffset_end : SameOffset cs cs.length (bytes cs).length := ⟨cs, [], by simp, rfl, rfl⟩

theorem SameOffset.add (h : SameOffset cs n k) (h' : SameOffset (cs.drop n) m j) : SameOffset cs (n + m) (k + j) := by
  obtain ⟨front, behind, rfl, rfl, rfl⟩ := h
  rw [List.drop_left] at h'
  obtain ⟨middle, last, rfl, rfl, rfl⟩ := h'
  refine ⟨front ++ middle, last, by simp, by simp, ?_⟩
  rw [bytes_append, List.length_append]

/-- Characters that are ASCII are as many bytes. -/
theorem sameOffset_ascii {front behind : List Char} (ascii : ∀ c ∈ front, c.toNat < 128) :
    SameOffset (front ++ behind) front.length front.length := by
  have same : bytes front = front := by
    induction front with
    | nil => rfl
    | cons c front ih =>
      obtain ⟨hc, others⟩ := List.forall_mem_cons.mp ascii
      rw [bytes_ascii hc, ih others]
  exact ⟨front, behind, rfl, rfl, by rw [same]⟩

theorem Covers.whole (source : List Char) : Covers source ⟨0, source⟩ ⟨0, (bytes source).length⟩ :=
  ⟨[], [], by simp, rfl, rfl⟩

theorem Covers.length (h : Covers source s b) : b.length = (bytes s.chars).length := by
  obtain ⟨before, after, -, -, rfl⟩ := h
  simp [ByteSpan.length, bytes_append]

theorem Covers.text (h : Covers source s b) : b.text? source = some s.chars := by
  obtain ⟨before, after, rfl, -, rfl⟩ := h
  exact sliceBytes_middle before s.chars after

theorem Covers.isEmpty (h : Covers source s b) : b.isEmpty = true ↔ s.chars = [] := by
  obtain ⟨before, after, -, -, rfl⟩ := h
  rw [← bytes_eq_nil, ← List.length_eq_zero_iff]
  simp only [ByteSpan.isEmpty, bytes_append, List.length_append, decide_eq_true_eq]
  omega

/-- Between paired offsets in order there is a range, of the same part of the text. -/
theorem Covers.slice (h : Covers source s b) (first : SameOffset s.chars n k) (last : SameOffset s.chars m j)
    (le : n ≤ m) : ∃ b', b.slice? source k j = some b' ∧ Covers source (s.slice n m) b' := by
  obtain ⟨before, after, hsource, hstart, rfl⟩ := h
  obtain ⟨front, rest, text, rfl, rfl⟩ := first
  obtain ⟨upTo, behind, text', rfl, rfl⟩ := last
  obtain ⟨middle, rfl⟩ : front <+: upTo :=
    List.prefix_of_prefix_length_le ⟨rest, text.symm⟩ ⟨behind, text'.symm⟩ le
  have chars : (s.slice front.length (front ++ middle).length).chars = middle := by
    simp [Span.slice, text']
  refine ⟨_, if_pos ⟨?_, ?_⟩, before ++ front, behind ++ after, ?_, ?_, ?_⟩
  · rw [bytes_append, List.length_append]
    omega
  · rw [hsource, text']
    simp only [bytes_append, List.length_append]
    omega
  · rw [chars, hsource, text']
    simp
  · simp [Span.slice, hstart]
  · rw [chars]
    simp only [bytes_append, List.length_append]
    congr 1
    omega

theorem Covers.tail (h : Covers source s b) (first : SameOffset s.chars n k) :
    ∃ b', b.tail? source k = some b' ∧ Covers source (s.tail n) b' := by
  have le : n ≤ s.chars.length := by
    obtain ⟨front, behind, text, rfl, -⟩ := first
    rw [text, List.length_append]
    omega
  have same : s.slice n s.chars.length = s.tail n := by
    unfold Span.slice Span.tail
    rw [List.take_of_length_le (by simp)]
  have range := h.slice first sameOffset_end le
  rw [same, ← h.length] at range
  exact range

/-- From the first byte on there is a range, whether or not a character begins there. -/
theorem Covers.tail_one (h : Covers source s b) (ne : s.chars ≠ []) : ∃ b', b.tail? source 1 = some b' := by
  have pos := List.length_pos_iff.mpr (mt bytes_eq_nil.mp ne)
  have length := h.length
  obtain ⟨before, after, hsource, -, rfl⟩ := h
  refine ⟨_, if_pos ⟨?_, ?_⟩⟩
  · omega
  · rw [length, hsource]
    simp only [bytes_append, List.length_append]
    omega

/-- Ranges of parts of one text are the same where the parts begin together and are as long. -/
theorem covers_eq {t : Span} {c : ByteSpan} (h : Covers source s b) (h' : Covers source t c) :
    b = c ↔ s.start = t.start ∧ s.chars.length = t.chars.length := by
  obtain ⟨before, after, hsource, hstart, rfl⟩ := h
  obtain ⟨before', after', hsource', hstart', rfl⟩ := h'
  -- Equal offsets cut the text into the same parts.
  have cut {front behind front' behind' : List Char} (here : source = front ++ behind) (there : source = front' ++ behind')
      (same : (bytes front).length = (bytes front').length) : front = front' := by
    have first := cutBytes_eq_some.mpr ⟨here, rfl⟩
    have second := cutBytes_eq_some.mpr ⟨there, same⟩
    cases first.symm.trans second
    rfl
  constructor
  · intro same
    obtain ⟨start, stop⟩ := ByteSpan.mk.injEq _ _ _ _ ▸ same
    obtain rfl := cut hsource hsource' start
    rw [← List.append_assoc] at hsource hsource'
    have whole := cut hsource hsource' stop
    refine ⟨hstart.trans hstart'.symm, ?_⟩
    exact congrArg List.length (List.append_cancel_left whole)
  · rintro ⟨start, length⟩
    obtain ⟨rfl, rest⟩ := List.append_inj (hsource.symm.trans hsource') (by omega)
    rw [(List.append_inj rest length).1]

end Offsets

end Groq.Query
