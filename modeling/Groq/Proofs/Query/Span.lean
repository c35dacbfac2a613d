/-
  Groq.Proofs.Query.Span — the spans a span divides into, and the places of its surface.

  Every span the grammar forms is a stretch of the one it was given: `Within`, or `Inside` where it
  is shorter. So it is a stretch of the whole text, and there its offset and length determine it.
-/

import Groq.Query.Surface

namespace Groq.Query

/-- The closing bracket is one of the characters read. -/
theorem closeFrom_bounds {s : Scan} {offset close : Nat} {cs : List Char} (h : closeFrom s offset cs = some close) :
    offset ≤ close ∧ close < offset + cs.length := by
  induction cs generalizing s offset with
  | nil => cases h
  | cons c cs ih =>
    simp only [closeFrom, Option.bind_eq_bind, Option.bind_eq_some_iff] at h
    obtain ⟨next, -, h⟩ := h
    simp only [List.length_cons]
    split at h
    · cases h
      omega
    · have := ih h
      omega

namespace Span

/-- `t` is a stretch of `s`. -/
def Within (t s : Span) : Prop := ∃ k n, t = ⟨s.start + k, (s.chars.drop k).take n⟩

/-- `t` is a stretch of `s`, and shorter. -/
def Inside (t s : Span) : Prop := t.Within s ∧ t.chars.length < s.chars.length

theorem Within.refl (s : Span) : s.Within s := ⟨0, s.chars.length, by simp⟩

theorem Within.trans {t u s : Span} (h : t.Within u) (h' : u.Within s) : t.Within s := by
  obtain ⟨k, n, rfl⟩ := h
  obtain ⟨k', n', rfl⟩ := h'
  refine ⟨k' + k, min n (n' - k), ?_⟩
  simp only [List.drop_take, List.drop_drop, List.take_take, Nat.add_assoc]

theorem Within.length_le {t s : Span} (h : t.Within s) : t.chars.length ≤ s.chars.length := by
  obtain ⟨k, n, rfl⟩ := h
  simp only [List.length_take, List.length_drop]
  omega

theorem Within.trans_inside {t u s : Span} (h : t.Within u) (h' : u.Inside s) : t.Inside s :=
  ⟨h.trans h'.1, Nat.lt_of_le_of_lt h.length_le h'.2⟩

theorem Inside.trans_within {t u s : Span} (h : t.Inside u) (h' : u.Within s) : t.Inside s :=
  ⟨h.1.trans h', Nat.lt_of_lt_of_le h.2 h'.length_le⟩

/-- Offset and length determine a stretch of a text. -/
theorem Within.chars_eq {s t whole : Span} (hs : s.Within whole) (ht : t.Within whole)
    (start : s.start = t.start) (length : s.chars.length = t.chars.length) : s.chars = t.chars := by
  obtain ⟨k, n, rfl⟩ := hs
  obtain ⟨k', n', rfl⟩ := ht
  obtain rfl : k = k' := Nat.add_left_cancel start
  simp only [List.length_take] at length
  exact List.take_eq_take_iff.mpr length

/-! ## Cutting -/

theorem tail_zero (s : Span) : s.tail 0 = s := rfl

theorem tail_tail (s : Span) (first second : Nat) : (s.tail first).tail second = s.tail (first + second) := by
  simp [tail, Nat.add_assoc]

theorem slice_of_tail (s : Span) (front first last : Nat) :
    (s.tail front).slice first last = s.slice (front + first) (front + last) := by
  simp [tail, slice, Nat.add_assoc, Nat.add_sub_add_left]

theorem within_slice (s : Span) (first last : Nat) : (s.slice first last).Within s :=
  ⟨first, last - first, rfl⟩

theorem within_tail (s : Span) (first : Nat) : (s.tail first).Within s :=
  ⟨first, s.chars.length, by simp [tail, List.take_of_length_le]⟩

theorem inside_slice {s : Span} {first last : Nat} (h : last - first < s.chars.length) :
    (s.slice first last).Inside s := by
  refine ⟨within_slice s first last, ?_⟩
  simp only [slice, List.length_take, List.length_drop]
  omega

theorem inside_tail {s : Span} {first : Nat} (hs : s.chars ≠ []) (h : 0 < first) : (s.tail first).Inside s := by
  refine ⟨within_tail s first, ?_⟩
  have := List.length_pos_iff.mpr hs
  simp only [tail, List.length_drop]
  omega

/-- Both brackets and what they enclose lie before what follows. -/
theorem enclosed_length {s inside rest : Span} (h : s.enclosed? = some (inside, rest)) :
    inside.chars.length + rest.chars.length + 2 ≤ s.chars.length := by
  simp only [enclosed?, Option.map_eq_some_iff] at h
  obtain ⟨close, hc, h⟩ := h
  cases h
  rcases hs : s.chars with _ | ⟨c, cs⟩
  · simp [hs, matchingClose?] at hc
  · simp only [hs, matchingClose?, Option.bind_eq_some_iff] at hc
    obtain ⟨closer, -, hc⟩ := hc
    have bounds := closeFrom_bounds hc
    simp only [slice, tail, hs, List.length_take, List.length_drop, List.length_cons]
    omega

theorem inside_enclosed {s inside rest : Span} (h : s.enclosed? = some (inside, rest)) :
    inside.Inside s ∧ rest.Inside s := by
  simp only [enclosed?, Option.map_eq_some_iff] at h
  obtain ⟨close, hc, h⟩ := h
  cases h
  have hs : s.chars ≠ [] := by
    intro e
    simp [e, matchingClose?] at hc
  refine ⟨⟨within_slice s 1 close, ?_⟩, inside_tail hs (Nat.succ_pos close)⟩
  have := List.length_pos_iff.mpr hs
  simp only [slice, List.length_take, List.length_drop]
  omega

theorem within_cutAt (s : Span) (offsets : List Nat) (first : Nat) :
    ∀ t ∈ s.cutAt first offsets, t.Within s := by
  induction offsets generalizing first with
  | nil => simpa [cutAt] using within_tail s first
  | cons offset rest ih =>
    intro t ht
    rcases List.mem_cons.mp ht with rfl | ht
    · exact within_slice s first offset
    · exact ih (offset + 1) t ht

theorem within_pieces {s : Span} {pieces : List Span} (h : s.pieces? = some pieces) :
    ∀ t ∈ pieces, t.Within s := by
  simp only [pieces?, Option.map_eq_some_iff] at h
  obtain ⟨places, -, rfl⟩ := h
  exact within_cutAt s _ 0

theorem within_items {s : Span} {items : List Span} (h : s.items? = some items) :
    ∀ t ∈ items, t.Within s := by
  unfold items? at h
  split at h
  · cases h; simp
  · obtain ⟨pieces, hp, rfl⟩ := Option.map_eq_some_iff.mp h
    intro t ht
    split at ht
    · exact within_pieces hp t (List.dropLast_subset pieces ht)
    · exact within_pieces hp t ht

end Span

/-! ## Places -/

/-- A place lies in the text: what it begins is the text from its offset on, and not empty. -/
theorem surfaceFrom_place {s : Scan} {offset : Nat} {before : Option Char} {cs : List Char}
    {places : List Place} (h : surfaceFrom s offset before cs = some places) :
    ∀ p ∈ places, ∃ pre, cs = pre ++ p.rest ∧ p.offset = offset + pre.length ∧ p.rest ≠ [] := by
  induction cs generalizing s offset before places with
  | nil =>
    simp only [surfaceFrom] at h
    split at h
    · cases h; simp
    · cases h
  | cons c rest ih =>
    simp only [surfaceFrom, Option.bind_eq_bind, Option.bind_eq_some_iff, pure, Option.some.injEq] at h
    obtain ⟨next, -, others, ho, rfl⟩ := h
    have hothers : ∀ p ∈ others, ∃ pre, c :: rest = pre ++ p.rest ∧ p.offset = offset + pre.length ∧ p.rest ≠ [] := by
      intro p hp
      obtain ⟨pre, e, hoff, hne⟩ := ih ho p hp
      exact ⟨c :: pre, by simp [← e], by simp only [List.length_cons]; omega, hne⟩
    intro p hp
    split at hp
    · rcases List.mem_cons.mp hp with rfl | hp
      · exact ⟨[], rfl, rfl, by simp⟩
      · exact hothers p hp
    · exact hothers p hp

theorem surface_place {cs : List Char} {places : List Place} (h : surface? cs = some places) {p : Place}
    (hp : p ∈ places) : p.offset < cs.length ∧ cs = cs.take p.offset ++ p.rest := by
  obtain ⟨pre, e, ho, hne⟩ := surfaceFrom_place h p hp
  have hlen := List.length_pos_iff.mpr hne
  rw [Nat.zero_add] at ho
  subst e
  refine ⟨by simp only [List.length_append]; omega, ?_⟩
  rw [ho, List.take_left']
  rfl

/-- The places come in the order of the text. -/
theorem surfaceFrom_sorted {s : Scan} {offset : Nat} {before : Option Char} {cs : List Char}
    {places : List Place} (h : surfaceFrom s offset before cs = some places) :
    places.Pairwise fun p q => p.offset < q.offset := by
  induction cs generalizing s offset before places with
  | nil =>
    simp only [surfaceFrom] at h
    split at h
    · cases h; simp
    · cases h
  | cons c rest ih =>
    simp only [surfaceFrom, Option.bind_eq_bind, Option.bind_eq_some_iff, pure, Option.some.injEq] at h
    obtain ⟨next, -, others, ho, rfl⟩ := h
    split
    · refine List.pairwise_cons.mpr ⟨fun q hq => ?_, ih ho⟩
      obtain ⟨pre, -, hoff, -⟩ := surfaceFrom_place ho q hq
      show offset < q.offset
      omega
    · exact ih ho

theorem surface_drop {cs : List Char} {places : List Place} (h : surface? cs = some places) {p : Place}
    (hp : p ∈ places) : cs.drop p.offset = p.rest := by
  obtain ⟨hlt, hcs⟩ := surface_place h hp
  have hdrop : (cs.take p.offset ++ p.rest).drop (cs.take p.offset).length = p.rest := List.drop_left
  rwa [← hcs, List.length_take_of_le (Nat.le_of_lt hlt)] at hdrop

end Groq.Query
