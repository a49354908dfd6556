import Peg.Program.LiteralMatcher

/-! Moving forward in a text. Cursors of one text are ordered by their offsets, and two of them with
the same offset are the same: a place is known by its offset alone. -/
namespace Peg.Cursor

/-- `stop` stands some characters behind `start`, in the same text. -/
def Reaches (start stop : Cursor) : Prop := ∃ n, stop = skip n start

theorem skip_add (m n : Nat) (c : Cursor) : skip (m + n) c = skip n (skip m c) := by
  induction m generalizing c with
  | zero => rw [Nat.zero_add]; rfl
  | succ m ih => rw [Nat.succ_add]; exact ih c.next

theorem next_of_rest {c : Cursor} {a : Char} {rest : List Char} (h : c.rest = a :: rest) :
    c.next = ⟨c.position.advance a, rest⟩ := by
  simp only [next, h]

theorem skip_of_end {c : Cursor} (h : c.rest = []) (n : Nat) : skip n c = c := by
  induction n with
  | zero => rfl
  | succ n ih =>
    have hn : c.next = c := by simp only [next, h]
    rw [skip, hn, ih]

theorem advance_offset (p : Position) (a : Char) :
    (p.advance a).offset = p.offset + a.utf8Size := by
  unfold Position.advance
  split <;> rfl

theorem next_offset {c : Cursor} {a : Char} {rest : List Char} (h : c.rest = a :: rest) :
    c.next.offset = c.offset + a.utf8Size := by
  rw [next_of_rest h]
  exact advance_offset c.position a

theorem peek_eq_some {c : Cursor} {a : Char} (h : c.peek = some a) : ∃ rest, c.rest = a :: rest :=
  List.head?_eq_some_iff.mp h

theorem reaches_refl (c : Cursor) : c.Reaches c := ⟨0, rfl⟩

theorem reaches_next (c : Cursor) : c.Reaches c.next := ⟨1, rfl⟩

theorem reaches_trans {a b c : Cursor} (hab : a.Reaches b) (hbc : b.Reaches c) : a.Reaches c := by
  obtain ⟨m, rfl⟩ := hab
  obtain ⟨n, rfl⟩ := hbc
  exact ⟨m + n, (skip_add m n a).symm⟩

/-- A step forward either stays at the end of the text or takes a character. -/
theorem reaches_cases {c stop : Cursor} (h : c.Reaches stop) :
    stop = c ∨ ∃ a rest, c.rest = a :: rest ∧ c.next.Reaches stop := by
  obtain ⟨n, rfl⟩ := h
  cases n with
  | zero => exact Or.inl rfl
  | succ n =>
    cases hr : c.rest with
    | nil => exact Or.inl (skip_of_end hr _)
    | cons a rest => exact Or.inr ⟨a, rest, rfl, n, rfl⟩

theorem offset_skip_le (n : Nat) (c : Cursor) : c.offset ≤ (skip n c).offset := by
  induction n generalizing c with
  | zero => exact Nat.le_refl _
  | succ n ih =>
    have hn : c.offset ≤ c.next.offset := by
      cases hr : c.rest with
      | nil => simp only [next, hr]; exact Nat.le_refl _
      | cons a rest => rw [next_offset hr]; exact Nat.le_add_right _ _
    exact Nat.le_trans hn (ih c.next)

theorem offset_le_of_reaches {c stop : Cursor} (h : c.Reaches stop) : c.offset ≤ stop.offset := by
  obtain ⟨n, rfl⟩ := h
  exact offset_skip_le n c

/-- Who gets further has a greater offset, as no character is empty. -/
theorem eq_of_reaches_of_offset {c stop : Cursor} (h : c.Reaches stop)
    (ho : stop.offset = c.offset) : stop = c := by
  rcases reaches_cases h with he | ⟨a, rest, hr, hn⟩
  · exact he
  · have hl := offset_le_of_reaches hn
    rw [next_offset hr] at hl
    have hp := Char.utf8Size_pos a
    omega

theorem rest_skip (n : Nat) (c : Cursor) : (skip n c).rest = c.rest.drop n := by
  induction n generalizing c with
  | zero => rfl
  | succ n ih =>
    cases hr : c.rest with
    | nil => rw [skip_of_end hr, hr, List.drop_nil]
    | cons a rest => rw [skip, ih, next_of_rest hr]; rfl

theorem rest_length_le_of_reaches {c stop : Cursor} (h : c.Reaches stop) :
    stop.rest.length ≤ c.rest.length := by
  obtain ⟨n, rfl⟩ := h
  rw [rest_skip, List.length_drop]
  omega

theorem rest_length_lt_of_reaches {c stop : Cursor} (h : c.Reaches stop)
    (ho : stop.offset ≠ c.offset) : stop.rest.length < c.rest.length := by
  rcases reaches_cases h with he | ⟨a, rest, hr, hn⟩
  · exact False.elim (ho (congrArg offset he))
  · have hl := rest_length_le_of_reaches hn
    rw [next_of_rest hr] at hl
    rw [hr, List.length_cons]
    exact Nat.lt_succ_of_le hl

/-- Of two places that can be reached from a third, one can be reached from the other. -/
theorem reaches_total {text a b : Cursor} (ha : text.Reaches a) (hb : text.Reaches b) :
    a.Reaches b ∨ b.Reaches a := by
  obtain ⟨m, rfl⟩ := ha
  obtain ⟨n, rfl⟩ := hb
  rcases Nat.le_total m n with h | h
  · obtain ⟨k, rfl⟩ := Nat.exists_eq_add_of_le h
    exact Or.inl ⟨k, skip_add m k text⟩
  · obtain ⟨k, rfl⟩ := Nat.exists_eq_add_of_le h
    exact Or.inr ⟨k, skip_add n k text⟩

/-- A place of a text is known by its offset. -/
theorem eq_of_offset_eq {text a b : Cursor} (ha : text.Reaches a) (hb : text.Reaches b)
    (ho : a.offset = b.offset) : a = b := by
  rcases reaches_total ha hb with h | h
  · exact (eq_of_reaches_of_offset h ho.symm).symm
  · exact eq_of_reaches_of_offset h ho

theorem eq_of_reaches_of_rest {c stop : Cursor} (h : c.Reaches stop) (hr : stop.rest = c.rest) :
    stop = c := by
  rcases reaches_cases h with he | ⟨a, rest, hc, hn⟩
  · exact he
  · have hl := rest_length_le_of_reaches hn
    rw [hr, hc, next_of_rest hc] at hl
    exact absurd hl (Nat.not_succ_le_self rest.length)

/-- A place of a text is also known by what follows. -/
theorem eq_of_rest_eq {text a b : Cursor} (ha : text.Reaches a) (hb : text.Reaches b)
    (hr : a.rest = b.rest) : a = b := by
  rcases reaches_total ha hb with h | h
  · exact (eq_of_reaches_of_rest h hr.symm).symm
  · exact eq_of_reaches_of_rest h hr

def byteCount : List Char → Nat
  | [] => 0
  | a :: rest => a.utf8Size + byteCount rest

theorem offset_add_byteCount_skip (n : Nat) (c : Cursor) :
    (skip n c).offset + byteCount (skip n c).rest = c.offset + byteCount c.rest := by
  induction n generalizing c with
  | zero => rfl
  | succ n ih =>
    cases hr : c.rest with
    | nil => rw [skip_of_end hr, hr]
    | cons a rest =>
      rw [skip, ih c.next, next_offset hr, next_of_rest hr, byteCount]
      exact Nat.add_assoc _ _ _

theorem byteCount_toList (text : String) : byteCount text.toList = text.utf8ByteSize := by
  have hb (cs : List Char) : (String.ofList cs).utf8ByteSize = byteCount cs := by
    induction cs with
    | nil => rfl
    | cons a cs ih =>
      rw [String.ofList_cons, String.utf8ByteSize_append, ih, String.utf8ByteSize_singleton]
      rfl
  rw [← hb, String.ofList_toList]

/-- No place of a text lies behind its end. -/
theorem offset_le_of_ofText_reaches {text : String} {c : Cursor} (h : (ofText text).Reaches c) :
    c.offset ≤ text.utf8ByteSize := by
  obtain ⟨n, rfl⟩ := h
  have hs := offset_add_byteCount_skip n (ofText text)
  have h0 : (ofText text).offset + byteCount (ofText text).rest = text.utf8ByteSize := by
    rw [← byteCount_toList]
    exact Nat.zero_add _
  omega

theorem skipPrefix_eq_some {cs : List Char} {c stop : Cursor} (h : skipPrefix cs c = some stop) :
    stop = skip cs.length c ∧ cs.length ≤ c.rest.length := by
  induction cs generalizing c with
  | nil => exact ⟨(Option.some.inj h).symm, Nat.zero_le _⟩
  | cons a cs ih =>
    unfold skipPrefix at h
    split at h
    · rename_i hp
      obtain ⟨rest, hr⟩ := peek_eq_some hp
      obtain ⟨hs, hl⟩ := ih h
      refine ⟨hs, ?_⟩
      rw [next_of_rest hr] at hl
      rw [hr, List.length_cons, List.length_cons]
      exact Nat.succ_le_succ hl
    · cases h

theorem lt_offset_skip {n : Nat} {c : Cursor} (hn : 0 < n) (hl : n ≤ c.rest.length) :
    c.offset < (skip n c).offset := by
  cases n with
  | zero => omega
  | succ n =>
    cases hr : c.rest with
    | nil => rw [hr, List.length_nil] at hl; omega
    | cons a rest =>
      have hle := offset_skip_le n c.next
      rw [next_offset hr] at hle
      have hp := Char.utf8Size_pos a
      rw [skip]
      omega

end Peg.Cursor

namespace Peg.LiteralMatcher

/-- A literal is as long as it has characters, up to case too. -/
theorem matchAt_eq_some {matcher : LiteralMatcher} (hl : matcher.length = matcher.chars.length)
    {c stop : Cursor} (h : matcher.matchAt c = some stop) :
    stop = c.skip matcher.length ∧ matcher.length ≤ c.rest.length := by
  unfold matchAt at h
  split at h
  · dsimp only at h
    split at h
    · rename_i hw
      refine ⟨(Option.some.inj h).symm, ?_⟩
      have ht := hw.1
      rw [List.length_take] at ht
      omega
    · cases h
  · rw [hl]
    exact Cursor.skipPrefix_eq_some h

theorem reaches_of_matchAt {matcher : LiteralMatcher} {c stop : Cursor}
    (h : matcher.matchAt c = some stop) : c.Reaches stop := by
  unfold matchAt at h
  split at h
  · dsimp only at h
    split at h
    · exact ⟨_, (Option.some.inj h).symm⟩
    · cases h
  · exact ⟨_, (Cursor.skipPrefix_eq_some h).1⟩

end Peg.LiteralMatcher
