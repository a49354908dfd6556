import Peg.Proofs.Cursor

/-! Positions of the places of a text. A place parts the text, and its position is where a scan of
the part in front comes to; the index of the lines finds the same position from the offset alone. -/
namespace Peg

theorem Position.advanceBy_append (p : Position) (cs ds : List Char) :
    p.advanceBy (cs ++ ds) = (p.advanceBy cs).advanceBy ds :=
  List.foldl_append

theorem Position.offset_advanceBy (p : Position) (cs : List Char) :
    (p.advanceBy cs).offset = p.offset + Cursor.byteCount cs := by
  induction cs generalizing p with
  | nil => rfl
  | cons c cs ih =>
    calc
      (p.advanceBy (c :: cs)).offset = (p.advance c).offset + Cursor.byteCount cs :=
        ih (p.advance c)
      _ = p.offset + (c.utf8Size + Cursor.byteCount cs) := by
        rw [Cursor.advance_offset, Nat.add_assoc]

namespace Cursor

theorem byteCount_append (cs ds : List Char) :
    byteCount (cs ++ ds) = byteCount cs + byteCount ds := by
  induction cs with
  | nil => exact (Nat.zero_add _).symm
  | cons c cs ih => rw [List.cons_append, byteCount, byteCount, ih, Nat.add_assoc]

theorem skip_eq (n : Nat) (c : Cursor) :
    skip n c = ⟨c.position.advanceBy (c.rest.take n), c.rest.drop n⟩ := by
  induction n generalizing c with
  | zero => rfl
  | succ n ih =>
    cases hr : c.rest with
    | nil =>
      rw [skip_of_end hr, List.take_nil, List.drop_nil]
      obtain ⟨position, rest⟩ := c
      cases hr
      rfl
    | cons a rest =>
      rw [skip, ih, next_of_rest hr]
      rfl

/-- A place in a text parts it, and has the position that a scan up to it comes to. -/
theorem exists_of_ofText_reaches {text : String} {c : Cursor} (h : (ofText text).Reaches c) :
    ∃ before after, text.toList = before ++ after ∧
      c = ⟨Position.start.advanceBy before, after⟩ := by
  obtain ⟨n, rfl⟩ := h
  exact ⟨text.toList.take n, text.toList.drop n, (List.take_append_drop n _).symm, skip_eq n _⟩

theorem atEnd_eq_false {text : String} {c : Cursor} (h : (ofText text).Reaches c)
    (hlt : c.offset < text.utf8ByteSize) : c.atEnd = false := by
  obtain ⟨n, rfl⟩ := h
  have hs := offset_add_byteCount_skip n (ofText text)
  have h0 : (ofText text).offset + byteCount (ofText text).rest = text.utf8ByteSize := by
    rw [← byteCount_toList]
    exact Nat.zero_add _
  unfold atEnd
  cases hr : (skip n (ofText text)).rest with
  | nil =>
    have hend : byteCount (skip n (ofText text)).rest = 0 := by rw [hr, byteCount]
    omega
  | cons a rest => rfl

end Cursor

namespace LineIndex

/-- Lines that start in a text start behind its first character. -/
theorem lt_offset_of_mem_startsIn {offset : Nat} {cs : List Char} {line : LineStart}
    (h : line ∈ startsIn offset cs) : offset < line.offset := by
  induction cs generalizing offset with
  | nil => cases h
  | cons c cs ih =>
    have hpos := Char.utf8Size_pos c
    have hlater (hm : line ∈ startsIn (offset + c.utf8Size) cs) : offset < line.offset := by
      have hlt := ih hm
      omega
    unfold startsIn at h
    dsimp only at h
    split at h
    · rcases List.mem_cons.mp h with rfl | hm
      · exact Nat.lt_add_of_pos_right hpos
      · exact hlater hm
    · exact hlater h

theorem columnsIn_append (cs rest : List Char) :
    columnsIn (Cursor.byteCount cs) (cs ++ rest) = cs.length := by
  induction cs with
  | nil =>
    cases rest with
    | nil => rfl
    | cons c rest => rfl
  | cons c cs ih =>
    have hpos := Char.utf8Size_pos c
    have hne : Cursor.byteCount (c :: cs) ≠ 0 := by
      rw [Cursor.byteCount]
      omega
    rw [List.cons_append, columnsIn, if_neg hne, Cursor.byteCount, Nat.add_sub_cancel_left, ih,
      List.length_cons]

/-- The position that the lines from `first` on give to an offset; `line` is the number of the
first. -/
def positionIn (line : Nat) (first : LineStart) (later : List LineStart) (offset : Nat) :
    Position :=
  let reached := later.takeWhile fun next => next.offset ≤ offset
  let last := reached.getLast?.getD first
  ⟨offset, reached.length + line, columnsIn (offset - last.offset) last.rest + 1⟩

theorem positionIn_of_lt {line offset : Nat} {first : LineStart} {later : List LineStart}
    (h : ∀ next ∈ later, offset < next.offset) :
    positionIn line first later offset =
      ⟨offset, line, columnsIn (offset - first.offset) first.rest + 1⟩ := by
  have hnone : later.takeWhile (fun next => next.offset ≤ offset) = [] := by
    cases later with
    | nil => rfl
    | cons next later =>
      have hlt := h next List.mem_cons_self
      exact List.takeWhile_cons_of_neg (by simpa using hlt)
  unfold positionIn
  rw [hnone]
  dsimp only [List.getLast?_nil, Option.getD_none, List.length_nil]
  rw [Nat.zero_add]

/-- A line that is reached takes the place of the first one. -/
theorem positionIn_cons {line offset : Nat} {first next : LineStart} (later : List LineStart)
    (h : next.offset ≤ offset) :
    positionIn line first (next :: later) offset = positionIn (line + 1) next later offset := by
  unfold positionIn
  dsimp only
  rw [List.takeWhile_cons_of_pos (by simpa using h), List.getLast?_cons, Option.getD_some,
    List.length_cons, Nat.add_right_comm, Nat.add_assoc]

/-- From a place in a line, with `passed` in front of it, the lines find what a scan does. -/
theorem positionIn_eq_advanceBy (offset line : Nat) (passed front rest : List Char) :
    positionIn line ⟨offset, passed ++ front ++ rest⟩
      (startsIn (offset + Cursor.byteCount passed) (front ++ rest))
      (offset + Cursor.byteCount (passed ++ front)) =
    (⟨offset + Cursor.byteCount passed, line, passed.length + 1⟩ : Position).advanceBy front := by
  induction front generalizing offset line passed with
  | nil =>
    rw [List.append_nil, List.nil_append, positionIn_of_lt fun _ => lt_offset_of_mem_startsIn]
    dsimp only
    rw [Nat.add_sub_cancel_left, columnsIn_append]
    rfl
  | cons c front ih =>
    by_cases hc : c = '\n'
    · have hcount : offset + Cursor.byteCount (passed ++ c :: front) =
          offset + Cursor.byteCount passed + c.utf8Size + Cursor.byteCount front := by
        rw [Cursor.byteCount_append, Cursor.byteCount]
        omega
      rw [List.cons_append, startsIn, if_pos hc, hcount, positionIn_cons _ (Nat.le_add_right _ _),
        Position.advanceBy, List.foldl_cons, Position.advance, if_pos hc]
      exact ih (offset + Cursor.byteCount passed + c.utf8Size) (line + 1) []
    · have hpassed : passed ++ c :: front = passed ++ [c] ++ front := List.append_cons _ _ _
      have hcount : offset + Cursor.byteCount passed + c.utf8Size =
          offset + Cursor.byteCount (passed ++ [c]) := by
        rw [Cursor.byteCount_append, Nat.add_assoc]
        rfl
      rw [List.cons_append, startsIn, if_neg hc, hpassed, hcount, ih, Position.advanceBy,
        Position.advanceBy, List.foldl_cons, Position.advance, if_neg hc, List.length_append]
      dsimp only
      rw [hcount]
      rfl

/-- The index finds the position that a scan comes to. -/
theorem position_ofText {text : String} {front rest : List Char} (h : text.toList = front ++ rest) :
    (ofText text).position (Cursor.byteCount front) = Position.start.advanceBy front := by
  have hsize : Cursor.byteCount front ≤ text.utf8ByteSize := by
    rw [← Cursor.byteCount_toList, h, Cursor.byteCount_append]
    exact Nat.le_add_right _ _
  have hscan := positionIn_eq_advanceBy 0 1 [] front rest
  rw [List.nil_append, Cursor.byteCount, Nat.zero_add, Nat.zero_add] at hscan
  unfold position ofText
  dsimp only
  rw [Nat.min_eq_left hsize, h]
  exact hscan

end LineIndex
end Peg
