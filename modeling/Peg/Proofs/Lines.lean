import Mathlib.Data.List.DropRight
import Mathlib.Data.Prod.Lex
import Mathlib.Order.Monotone.Defs
import Peg.Proofs.Positions

/-! Lines and columns. The line of a position counts the line feeds in front of it, and its column
the characters since the last of them; so positions are ordered as their offsets are. The index of
the lines finds them from the offset, on character boundaries and behind the end of the text. -/
namespace Peg

namespace Position

/-- Where a position is to be found: positions are ordered by their lines, and on a line by their
columns. -/
def place (p : Position) : ℕ ×ₗ ℕ := toLex (p.line, p.column)

theorem line_advanceBy (p : Position) (cs : List Char) :
    (p.advanceBy cs).line = p.line + cs.count '\n' := by
  induction cs generalizing p with
  | nil => rfl
  | cons c cs ih =>
    have hstep : (p.advance c).line = p.line + if c = '\n' then 1 else 0 := by
      unfold advance
      split <;> rfl
    calc
      (p.advanceBy (c :: cs)).line = (p.advance c).line + cs.count '\n' := ih (p.advance c)
      _ = p.line + (c :: cs).count '\n' := by
        rw [hstep, List.count_cons]
        simp only [beq_iff_eq]
        omega

/-- The column counts the characters behind the last line feed. -/
theorem column_advanceBy (cs : List Char) :
    (start.advanceBy cs).column = 1 + (cs.rtakeWhile (· ≠ '\n')).length := by
  induction cs using List.reverseRecOn with
  | nil => rfl
  | append_singleton cs c ih =>
    have hstep : start.advanceBy (cs ++ [c]) = (start.advanceBy cs).advance c :=
      start.advanceBy_append cs [c]
    rw [hstep, advance, List.rtakeWhile_concat]
    by_cases hc : c = '\n'
    · simp [hc]
    · simp [hc, ih]
      omega

theorem place_lt_advance (p : Position) (c : Char) : p.place < (p.advance c).place := by
  apply Prod.Lex.toLex_lt_toLex.mpr
  unfold advance
  split
  · exact Or.inl (Nat.lt_succ_self p.line)
  · exact Or.inr ⟨rfl, Nat.lt_succ_self p.column⟩

/-- Positions go up with the text in front of them. -/
theorem place_lt_advanceBy (p : Position) {cs : List Char} (h : cs ≠ []) :
    p.place < (p.advanceBy cs).place := by
  induction cs generalizing p with
  | nil => exact absurd rfl h
  | cons c cs ih =>
    have hfirst := p.place_lt_advance c
    by_cases hcs : cs = []
    · rw [hcs]
      exact hfirst
    · exact hfirst.trans (ih (p.advance c) hcs)

end Position

/-- `front` is what the text has in front of the offset, which lies on a character boundary behind
`front` or somewhere behind the end of the text. -/
def InFront (text : String) (offset : ℕ) (front : List Char) : Prop :=
  ∃ rest, text.toList = front ++ rest ∧
    (offset = Cursor.byteCount front ∨ rest = [] ∧ Cursor.byteCount front < offset)

variable {text : String} {offset : ℕ} {front : List Char}

theorem exists_append_of_isValid (h : (⟨offset⟩ : String.Pos.Raw).IsValid text) :
    ∃ front rest, text.toList = front ++ rest ∧ offset = Cursor.byteCount front := by
  obtain ⟨before, after, rfl, hoffset⟩ := String.Pos.Raw.isValid_iff_exists_append.mp h
  refine ⟨before.toList, after.toList, String.toList_append, ?_⟩
  rw [Cursor.byteCount_toList]
  exact congrArg String.Pos.Raw.byteIdx hoffset

/-- Between two boundaries stands a part of the text. -/
theorem exists_between {start stop : ℕ} (hstart : (⟨start⟩ : String.Pos.Raw).IsValid text)
    (hstop : (⟨stop⟩ : String.Pos.Raw).IsValid text) (hle : start ≤ stop) :
    ∃ front range rest, text.toList = front ++ range ++ rest ∧
      start = Cursor.byteCount front ∧ stop = Cursor.byteCount (front ++ range) := by
  obtain ⟨front, rest, htext, rfl⟩ := exists_append_of_isValid hstart
  obtain ⟨front', rest', htext', rfl⟩ := exists_append_of_isValid hstop
  rcases List.append_eq_append_iff.mp (htext.symm.trans htext') with
    ⟨range, rfl, -⟩ | ⟨range, rfl, hrest⟩
  · exact ⟨front, range, rest', htext', rfl, rfl⟩
  · have hnone : Cursor.byteCount range = 0 := by
      rw [Cursor.byteCount_append] at hle
      omega
    refine ⟨front' ++ range, [], rest, ?_, rfl, ?_⟩
    · rw [List.append_nil, htext]
    · rw [List.append_nil, Cursor.byteCount_append, hnone, Nat.add_zero]

theorem exists_inFront (h : (⟨offset⟩ : String.Pos.Raw).IsValid text ∨ text.utf8ByteSize < offset) :
    ∃ front, InFront text offset front := by
  rcases h with hvalid | hpast
  · obtain ⟨front, rest, htext, hoffset⟩ := exists_append_of_isValid hvalid
    exact ⟨front, rest, htext, Or.inl hoffset⟩
  · refine ⟨text.toList, [], (List.append_nil _).symm, Or.inr ⟨rfl, ?_⟩⟩
    rwa [Cursor.byteCount_toList]

/-- What stands in front of an offset has as many bytes as the offset says, or all there are. -/
theorem InFront.byteCount (h : InFront text offset front) :
    Cursor.byteCount front = min offset text.utf8ByteSize := by
  obtain ⟨rest, htext, hoffset⟩ := h
  have hsize : text.utf8ByteSize = Cursor.byteCount front + Cursor.byteCount rest := by
    rw [← Cursor.byteCount_toList, htext, Cursor.byteCount_append]
  rcases hoffset with rfl | ⟨rfl, hlt⟩
  · omega
  · rw [Cursor.byteCount] at hsize
    omega

namespace LineIndex

theorem position_min (index : LineIndex) (offset : ℕ) :
    index.position (min offset index.size) = index.position offset := by
  unfold position
  rw [Nat.min_assoc, Nat.min_self]

/-- The index finds the position that a scan of what stands in front comes to. -/
theorem position_of_inFront (h : InFront text offset front) :
    (ofText text).position offset = Position.start.advanceBy front := by
  obtain ⟨rest, htext, -⟩ := id h
  calc
    (ofText text).position offset = (ofText text).position (Cursor.byteCount front) := by
      rw [h.byteCount]
      exact ((ofText text).position_min offset).symm
    _ = Position.start.advanceBy front := position_ofText htext

theorem length_startsIn (offset : ℕ) (cs : List Char) :
    (startsIn offset cs).length = cs.count '\n' := by
  induction cs generalizing offset with
  | nil => rfl
  | cons c cs ih =>
    rw [startsIn, List.count_cons]
    by_cases hc : c = '\n'
    · simp [hc, ih]
    · simp [hc, ih]

/-- There is one line more than there are line feeds. -/
theorem lineCount_ofText (text : String) :
    (ofText text).lineCount = text.toList.count '\n' + 1 := by
  rw [lineCount, ofText, length_startsIn]

/-- Of two boundaries the one further on has the position further on. -/
theorem strictMonoOn_place (text : String) :
    StrictMonoOn (fun offset => ((ofText text).position offset).place)
      {offset | (⟨offset⟩ : String.Pos.Raw).IsValid text} := by
  intro a ha b hb hlt
  obtain ⟨front, range, rest, htext, rfl, rfl⟩ := exists_between ha hb (Nat.le_of_lt hlt)
  have hrange : range ≠ [] := by
    rintro rfl
    rw [List.append_nil] at hlt
    exact Nat.lt_irrefl _ hlt
  show ((ofText text).position _).place < ((ofText text).position _).place
  rw [position_ofText htext, position_ofText (htext.trans (List.append_assoc _ _ _)),
    Position.advanceBy_append]
  exact Position.place_lt_advanceBy _ hrange

/-- Positions agree with a plain scan of the text. An offset on a character boundary, or behind the
end of the text, which then counts as its end, has the line that the line feeds in front of it make,
and the column that the characters behind the last of these make. On boundaries, positions go up
line by line and column by column, and there is no line that the text does not have. -/
theorem position_as_scanned (text : String) :
    (∀ offset, (⟨offset⟩ : String.Pos.Raw).IsValid text ∨ text.utf8ByteSize < offset →
      ∃ front, InFront text offset front ∧
        (ofText text).position offset = ⟨min offset text.utf8ByteSize, 1 + front.count '\n',
          1 + (front.rtakeWhile (· ≠ '\n')).length⟩ ∧
        1 ≤ ((ofText text).position offset).line ∧
        ((ofText text).position offset).line ≤ (ofText text).lineCount) ∧
    StrictMonoOn (fun offset => ((ofText text).position offset).place)
      {offset | (⟨offset⟩ : String.Pos.Raw).IsValid text} := by
  refine ⟨fun offset h => ?_, strictMonoOn_place text⟩
  obtain ⟨front, hfront⟩ := exists_inFront h
  have hposition : (ofText text).position offset = ⟨min offset text.utf8ByteSize,
      1 + front.count '\n', 1 + (front.rtakeWhile (· ≠ '\n')).length⟩ := by
    have hoffset : (Position.start.advanceBy front).offset = min offset text.utf8ByteSize := by
      rw [Position.offset_advanceBy, hfront.byteCount]
      exact Nat.zero_add _
    rw [position_of_inFront hfront, ← hoffset, ← Position.column_advanceBy,
      show 1 + front.count '\n' = (Position.start.advanceBy front).line from
        (Position.start.line_advanceBy front).symm]
  obtain ⟨rest, htext, -⟩ := id hfront
  refine ⟨front, hfront, hposition, ?_, ?_⟩
  · rw [hposition]
    exact Nat.le_add_right 1 _
  · rw [hposition, lineCount_ofText, htext, List.count_append]
    dsimp only
    omega

/-- Four lines, one of them empty, and in the last one a character of two bytes. -/
theorem position_as_scanned_accented :
    (⟨3⟩ : String.Pos.Raw).IsValid "ab\ncd\n\né" ∧ (⟨7⟩ : String.Pos.Raw).IsValid "ab\ncd\n\né" ∧
    "ab\ncd\n\né".utf8ByteSize < 99 ∧
    (∃ front, InFront "ab\ncd\n\né" 99 front ∧ front.count '\n' = 3 ∧
      (front.rtakeWhile (· ≠ '\n')).length = 1) ∧
    ((ofText "ab\ncd\n\né").position 3).place < ((ofText "ab\ncd\n\né").position 7).place := by
  have hthree : (⟨3⟩ : String.Pos.Raw).IsValid "ab\ncd\n\né" := by decide
  have hseven : (⟨7⟩ : String.Pos.Raw).IsValid "ab\ncd\n\né" := by decide
  have hpast : "ab\ncd\n\né".utf8ByteSize < 99 := by decide
  obtain ⟨hscan, hmono⟩ := position_as_scanned "ab\ncd\n\né"
  obtain ⟨front, hfront, hposition, -, -⟩ := hscan 99 (Or.inr hpast)
  have hend : (ofText "ab\ncd\n\né").position 99 = ⟨9, 4, 2⟩ := by decide
  rw [hend, Position.mk.injEq] at hposition
  refine ⟨hthree, hseven, hpast, ⟨front, hfront, ?_, ?_⟩, hmono hthree hseven (by decide)⟩
  · omega
  · omega

end LineIndex
end Peg
