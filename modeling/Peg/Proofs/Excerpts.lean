import Peg.Proofs.Lines
import Peg.Text.Report

/-! Reports point at the right place. The line that a report shows is found by splitting the source,
the carets below it are placed by columns, and the columns by the index of lines; all three agree on
the line feeds of the source. -/
namespace Peg

/-- A place parts a text, and the line on which it lies: `front` and `back` are what the line has in
front of the place and behind it, `above` and `below` is the rest of the text. -/
structure LineAround (text above front back below : List Char) : Prop where
  parts : text = above ++ front ++ back ++ below
  unbroken : '\n' ∉ front ++ back
  opens : above = [] ∨ above.getLast? = some '\n'
  closes : below = [] ∨ below.head? = some '\n'

variable {text above front back below cs : List Char}

theorem exists_lineAround {before after : List Char} (h : text = before ++ after) :
    ∃ above front back below, LineAround text above front back below ∧ before = above ++ front := by
  have hbefore : before.rdropWhile (· ≠ '\n') ++ before.rtakeWhile (· ≠ '\n') = before :=
    List.rdropWhile_append_rtakeWhile
  have hafter : after.takeWhile (· ≠ '\n') ++ after.dropWhile (· ≠ '\n') = after :=
    List.takeWhile_append_dropWhile
  refine ⟨before.rdropWhile (· ≠ '\n'), before.rtakeWhile (· ≠ '\n'), after.takeWhile (· ≠ '\n'),
    after.dropWhile (· ≠ '\n'), ⟨?_, ?_, ?_, ?_⟩, hbefore.symm⟩
  · rw [hbefore, List.append_assoc, hafter, h]
  · intro hm
    rcases List.mem_append.mp hm with hm | hm
    · simpa using List.mem_rtakeWhile_imp hm
    · simpa using List.mem_takeWhile_imp hm
  · rw [or_iff_not_imp_left]
    intro hne
    have hlast := List.rdropWhile_last_not _ before hne
    rw [List.getLast?_eq_some_getLast hne]
    simpa using hlast
  · rw [or_iff_not_imp_left]
    intro hne
    have hhead := List.head_dropWhile_not (fun c : Char => decide (c ≠ '\n')) hne
    rw [List.head?_eq_some_head hne]
    simpa using hhead

theorem ne_newline_of_not_mem {line : List Char} (h : '\n' ∉ line) :
    ∀ c ∈ line, decide (c ≠ '\n') = true := by
  intro c hc
  apply decide_eq_true
  rintro rfl
  exact h hc

/-- A line is split off as a whole. -/
theorem splitOn_append_of_closes {line rest : List Char} (hline : '\n' ∉ line)
    (hrest : rest = [] ∨ rest.head? = some '\n') :
    ∃ others, (line ++ rest).splitOn '\n' = line :: others := by
  rcases hrest with rfl | hhead
  · rw [List.append_nil, List.splitOn_eq_singleton hline]
    exact ⟨[], rfl⟩
  · obtain ⟨rest, rfl⟩ := List.head?_eq_some_iff.mp hhead
    exact ⟨_, List.splitOn_append_cons_self_of_not_mem hline rest⟩

theorem length_splitOn (cs : List Char) :
    (cs.splitOn '\n').length = cs.count '\n' + 1 := by
  induction cs with
  | nil => rfl
  | cons c cs ih =>
    rw [List.splitOn_cons_eq_if_modifyHead, List.count_cons]
    split
    · rw [List.length_cons, ih]
    · rw [List.length_modifyHead, ih, Nat.add_zero]

namespace LineAround

/-- In front of the line there are as many lines as line feeds. -/
theorem getElem?_splitOn (h : LineAround text above front back below) :
    (text.splitOn '\n')[above.count '\n']? = some (front ++ back) := by
  obtain ⟨others, hline⟩ := splitOn_append_of_closes h.unbroken h.closes
  have htext : text = above ++ ((front ++ back) ++ below) := by
    rw [h.parts]
    simp only [List.append_assoc]
  rcases h.opens with rfl | hlast
  · rw [htext, List.nil_append, hline]
    rfl
  · obtain ⟨lines, rfl⟩ := List.getLast?_eq_some_iff.mp hlast
    have hcount : (lines ++ ['\n']).count '\n' = (lines.splitOn '\n').length := by
      rw [length_splitOn, List.count_append]
      rfl
    have hsplit : text.splitOn '\n' = lines.splitOn '\n' ++ (front ++ back) :: others := by
      rw [htext, List.append_assoc, List.singleton_append, List.splitOn_append_cons_self, hline]
    rw [hsplit, hcount, List.getElem?_append_right (Nat.le_refl _), Nat.sub_self]
    rfl

/-- What the line has in front of a place follows the last line feed there. -/
theorem rtakeWhile_eq (h : LineAround text above front back below) {passed : List Char}
    (hpassed : '\n' ∉ passed) : (above ++ passed).rtakeWhile (· ≠ '\n') = passed := by
  have hall := ne_newline_of_not_mem fun hm => hpassed (List.mem_reverse.mp hm)
  have hnone : above.reverse.takeWhile (fun c => decide (c ≠ '\n')) = [] := by
    rcases h.opens with rfl | hlast
    · rfl
    · obtain ⟨lines, rfl⟩ := List.getLast?_eq_some_iff.mp hlast
      simp
  rw [List.rtakeWhile, List.reverse_append, List.takeWhile_append_of_pos hall, hnone,
    List.append_nil, List.reverse_reverse]

theorem line_advanceBy (h : LineAround text above front back below) (passed : List Char) :
    (Position.start.advanceBy (above ++ front ++ passed)).line =
      above.count '\n' + 1 + passed.count '\n' := by
  have hfront : front.count '\n' = 0 :=
    List.count_eq_zero.mpr fun hm => h.unbroken (List.mem_append_left _ hm)
  rw [Position.line_advanceBy, List.count_append, List.count_append, hfront]
  show 1 + _ = _
  omega

theorem column_advanceBy (h : LineAround text above front back below) {passed : List Char}
    (hpassed : '\n' ∉ passed) :
    (Position.start.advanceBy (above ++ front ++ passed)).column =
      front.length + passed.length + 1 := by
  have hline : '\n' ∉ front ++ passed :=
    List.not_mem_append (fun hm => h.unbroken (List.mem_append_left _ hm)) hpassed
  rw [Position.column_advanceBy, List.append_assoc, h.rtakeWhile_eq hline, List.length_append,
    Nat.add_comm]

/-- The line of the place. -/
theorem line_eq (h : LineAround text above front back below) {p : Position}
    (hp : p = Position.start.advanceBy (above ++ front)) : p.line = above.count '\n' + 1 := by
  rw [hp, ← List.append_nil (above ++ front)]
  exact h.line_advanceBy []

/-- The column of the place. -/
theorem column_eq (h : LineAround text above front back below) {p : Position}
    (hp : p = Position.start.advanceBy (above ++ front)) : p.column = front.length + 1 := by
  rw [hp, ← List.append_nil (above ++ front)]
  exact h.column_advanceBy List.not_mem_nil

end LineAround

namespace Report

/-- A line is the piece of the text at that place between line feeds. -/
theorem lineAt_eq (n : ℕ) (cs : List Char) :
    lineAt (n + 1) cs = (cs.splitOn '\n')[n]?.getD [] := by
  induction n generalizing cs with
  | zero =>
    rw [lineAt]
    by_cases hm : '\n' ∈ cs
    · obtain ⟨line, rest, rfl, hline⟩ := List.eq_append_cons_of_mem hm
      rw [List.splitOn_append_cons_self_of_not_mem hline,
        List.takeWhile_append_of_pos (ne_newline_of_not_mem hline)]
      simp
    · rw [List.splitOn_eq_singleton hm, List.takeWhile_eq_self_iff.mpr (ne_newline_of_not_mem hm)]
      rfl
  | succ n ih =>
    rw [lineAt]
    by_cases hm : '\n' ∈ cs
    · obtain ⟨line, rest, rfl, hline⟩ := List.eq_append_cons_of_mem hm
      rw [List.splitOn_append_cons_self_of_not_mem hline,
        List.dropWhile_append_of_pos (ne_newline_of_not_mem hline)]
      simpa using ih rest
    · rw [List.splitOn_eq_singleton hm, List.dropWhile_eq_nil_iff.mpr (ne_newline_of_not_mem hm)]
      rfl

/-- Behind a place on the line only a carriage return at the end is dropped. -/
theorem drop_dropReturn (front back : List Char) :
    (dropReturn (front ++ back)).drop front.length = dropReturn back := by
  -- The last character of the line stands behind the place unless nothing does, and only then can
  -- the place itself be behind what is shown.
  by_cases hback : back = []
  · have hle : (dropReturn front).length ≤ front.length := by
      unfold dropReturn
      split
      · rw [List.length_dropLast]
        omega
      · exact Nat.le_refl _
    rw [hback, List.append_nil, List.drop_of_length_le hle]
    rfl
  · unfold dropReturn
    rw [List.getLast?_append_of_ne_nil _ hback]
    split
    · rw [List.dropLast_append_of_ne_nil hback, List.drop_left]
    · rw [List.drop_left]

theorem newline_not_mem_dropReturn {line : List Char} (h : '\n' ∉ line) :
    '\n' ∉ dropReturn line := by
  unfold dropReturn
  split
  · exact fun hm => h (List.dropLast_subset line hm)
  · exact h

theorem newline_not_mem_toString (n : ℕ) : '\n' ∉ (toString n).toList := by
  intro hm
  have hdigits : '\n' ∈ Nat.toDigits 10 n := by simpa using hm
  have hdigit := Nat.isDigit_of_mem_toDigits (by decide) (by decide) hdigits
  exact absurd hdigit (by decide)

def heading (p : Position) : String :=
  "ERROR: At line " ++ toString p.line ++ ", column " ++ toString p.column ++ ":"

def label (line : ℕ) : List Char := (toString line).toList ++ [' ', '|', ' ']

/-- The number of carets below a range that has `back` behind its start on the line: one for every
character of the range, if it ends on the line, and otherwise for every character shown, but at
least one. -/
def caretCount (back range : List Char) : ℕ :=
  max 1 (if '\n' ∈ range then (dropReturn back).length else range.length)

/-- What a report has below the carets, line by line behind an indent. -/
def advice (indent message : String) (tip : Option String) : String :=
  String.join ((lines message).map fun line => "\n" ++ indent ++ line) ++
    match tip with
    | some tip => "\n" ++ indent ++ "Tip: " ++ tip
    | none => ""

theorem newline_not_mem_heading (p : Position) : '\n' ∉ (heading p).toList := by
  have hline := newline_not_mem_toString p.line
  have hcolumn := newline_not_mem_toString p.column
  unfold heading
  simp only [String.toList_append, List.mem_append, not_or]
  exact ⟨⟨⟨⟨by decide, hline⟩, by decide⟩, hcolumn⟩, by decide⟩

theorem newline_not_mem_label (line : ℕ) : '\n' ∉ label line :=
  List.not_mem_append (newline_not_mem_toString line) (by decide)

/-- If there is anything below the carets, it starts on a new line. -/
theorem closes_advice (indent message : String) (tip : Option String) :
    (advice indent message tip).toList = [] ∨
      (advice indent message tip).toList.head? = some '\n' := by
  unfold advice
  cases lines message with
  | cons line lines => exact Or.inr (by simp)
  | nil =>
    cases tip with
    | some tip => exact Or.inr (by simp)
    | none => exact Or.inl rfl

/-- What a report is made of. The carets are as far in as the label and the column say. -/
theorem toList_render (source message : String) (tip : Option String) (span : Span)
    (hcolumn : 1 ≤ span.start.column) :
    ∃ indent, (render source span message tip).toList = (heading span.start).toList ++ '\n' ::
      ([] ++ '\n' ::
        ((label span.start.line ++ dropReturn (lineAt span.start.line source.toList)) ++ '\n' ::
          ((List.replicate ((label span.start.line).length + (span.start.column - 1)) ' ' ++
            List.replicate (underline span (dropReturn (lineAt span.start.line source.toList)))
              '^') ++
            (advice indent message tip).toList))) := by
  have hindent : span.start.column + (toString span.start.line).length + 2 =
      (label span.start.line).length + (span.start.column - 1) := by
    rw [label, List.length_append, String.length_toList]
    show _ = _ + 3 + _
    omega
  refine ⟨String.ofList (List.replicate
    (span.start.column + (toString span.start.line).length + 2) ' '), ?_⟩
  rw [← hindent]
  unfold render heading label advice
  cases tip with
  | none => simp
  | some tip => simp

section Placed

variable {source : String} {range : List Char} {span : Span}

/-- The line of the place is shown. -/
theorem lineAt_start (h : LineAround text above front back below)
    (hstart : span.start = Position.start.advanceBy (above ++ front)) :
    lineAt span.start.line text = front ++ back := by
  rw [h.line_eq hstart, lineAt_eq, h.getElem?_splitOn]
  rfl

/-- The number of carets under a range that starts at the place. -/
theorem underline_eq (h : LineAround text above front back below)
    (hstart : span.start = Position.start.advanceBy (above ++ front))
    (hstop : span.stop = Position.start.advanceBy (above ++ front ++ range)) :
    underline span (dropReturn (front ++ back)) = caretCount back range := by
  have hcolumn := h.column_eq hstart
  have hline : span.stop.line = span.start.line + range.count '\n' := by
    rw [hstop, h.line_advanceBy, h.line_eq hstart]
  unfold underline caretCount
  by_cases hrange : '\n' ∈ range
  · have hpos := List.count_pos_iff.mpr hrange
    have hlength :
        (dropReturn back).length = (dropReturn (front ++ back)).length - front.length := by
      rw [← drop_dropReturn front back, List.length_drop]
    rw [if_neg (by omega), if_neg (by omega), if_pos hrange, hcolumn, Nat.add_sub_cancel, hlength,
      Nat.max_comm]
  · have hzero := List.count_eq_zero.mpr hrange
    have hlength : span.stop.column - span.start.column = range.length := by
      rw [hcolumn, hstop, h.column_advanceBy hrange]
      omega
    rw [if_pos (by omega), if_neg hrange, hlength, Nat.max_comm]

theorem newline_not_mem_carets (indent carets : ℕ) :
    '\n' ∉ List.replicate indent ' ' ++ List.replicate carets '^' := by
  apply List.not_mem_append
  · intro hm
    exact absurd (List.eq_of_mem_replicate hm) (by decide)
  · intro hm
    exact absurd (List.eq_of_mem_replicate hm) (by decide)

/-- A report on a range line by line, down to the carets. -/
theorem splitOn_render (h : LineAround source.toList above front back below)
    (hstart : span.start = Position.start.advanceBy (above ++ front))
    (hstop : span.stop = Position.start.advanceBy (above ++ front ++ range))
    (message : String) (tip : Option String) :
    ∃ others, (render source span message tip).toList.splitOn '\n' =
      (heading span.start).toList :: [] ::
      (label span.start.line ++ dropReturn (front ++ back)) ::
      (List.replicate ((label span.start.line).length + front.length) ' ' ++
        List.replicate (caretCount back range) '^') :: others := by
  have hcolumn := h.column_eq hstart
  have hcolumn' : span.start.column - 1 = front.length := by omega
  have hline : '\n' ∉ label span.start.line ++ dropReturn (front ++ back) :=
    List.not_mem_append (newline_not_mem_label _) (newline_not_mem_dropReturn h.unbroken)
  obtain ⟨indent, hrender⟩ := toList_render source message tip span (by omega)
  rw [lineAt_start h hstart, hcolumn', underline_eq h hstart hstop] at hrender
  obtain ⟨others, hothers⟩ := splitOn_append_of_closes
    (newline_not_mem_carets ((label span.start.line).length + front.length) _)
    (closes_advice indent message tip)
  refine ⟨others, ?_⟩
  rw [hrender, List.splitOn_append_cons_self_of_not_mem (newline_not_mem_heading _),
    List.splitOn_append_cons_self_of_not_mem List.not_mem_nil,
    List.splitOn_append_cons_self_of_not_mem hline, hothers]

end Placed

/-- Reports point at the right place. For every range of a source, from one character boundary to
another, the report shows the line on which the range starts, which is all of the source between two
line feeds around that place, less a carriage return at its end. The first caret stands below what
follows the place on the line. There are as many carets as characters in the range, if it ends on
the line, and otherwise as many as characters of the shown line from the place on, but at least one.
No line or column from which one is subtracted is zero. -/
theorem render_points (source message : String) (tip : Option String) {start stop : ℕ}
    (hstart : (⟨start⟩ : String.Pos.Raw).IsValid source)
    (hstop : (⟨stop⟩ : String.Pos.Raw).IsValid source) (hle : start ≤ stop) :
    let span := (LineIndex.ofText source).span start stop
    ∃ (above front back below range : List Char) (others : List (List Char)),
      LineAround source.toList above front back below ∧
      above ++ front ++ range <+: source.toList ∧ start = Cursor.byteCount (above ++ front) ∧
      stop = Cursor.byteCount (above ++ front ++ range) ∧
      1 ≤ span.start.line ∧ 1 ≤ span.start.column ∧
      (render source span message tip).toList.splitOn '\n' =
        (heading span.start).toList :: [] ::
        (label span.start.line ++ dropReturn (front ++ back)) ::
        (List.replicate ((label span.start.line).length + front.length) ' ' ++
          List.replicate (caretCount back range) '^') :: others ∧
      (label span.start.line ++ dropReturn (front ++ back)).drop
        ((label span.start.line).length + front.length) = dropReturn back := by
  intro span
  obtain ⟨before, range, rest, htext, rfl, rfl⟩ := exists_between hstart hstop hle
  obtain ⟨above, front, back, below, hline, rfl⟩ :=
    exists_lineAround (htext.trans (List.append_assoc _ _ _))
  have hstart' : span.start = Position.start.advanceBy (above ++ front) :=
    LineIndex.position_ofText (htext.trans (List.append_assoc _ _ _))
  have hstop' : span.stop = Position.start.advanceBy (above ++ front ++ range) :=
    LineIndex.position_ofText htext
  obtain ⟨others, hsplit⟩ := splitOn_render hline hstart' hstop' message tip
  have hnumber := hline.line_eq hstart'
  have hcolumn := hline.column_eq hstart'
  refine ⟨above, front, back, below, range, others, hline, ⟨rest, htext.symm⟩, rfl, rfl, ?_, ?_,
    hsplit, ?_⟩
  · omega
  · omega
  · rw [← List.drop_drop, List.drop_left, drop_dropReturn]

/-- A range that starts behind a character of two bytes and ends on the next line. -/
theorem render_points_crossing :
    (⟨5⟩ : String.Pos.Raw).IsValid "a\r\nñb = c\r\nd" ∧
    (⟨13⟩ : String.Pos.Raw).IsValid "a\r\nñb = c\r\nd" ∧ 5 ≤ 13 ∧
    ∃ front back range : List Char, '\n' ∉ front ++ back ∧
      label 2 ++ dropReturn (front ++ back) = "2 | ñb = c".toList ∧
      List.replicate ((label 2).length + front.length) ' ' ++
        List.replicate (caretCount back range) '^' = "     ^^^^^".toList := by
  have hstart : (⟨5⟩ : String.Pos.Raw).IsValid "a\r\nñb = c\r\nd" := by decide
  have hstop : (⟨13⟩ : String.Pos.Raw).IsValid "a\r\nñb = c\r\nd" := by decide
  obtain ⟨above, front, back, below, range, others, hline, -, -, -, -, -, hsplit, -⟩ :=
    render_points "a\r\nñb = c\r\nd" "Unused" none hstart hstop (by decide)
  have hspan : (LineIndex.ofText "a\r\nñb = c\r\nd").span 5 13 = ⟨⟨5, 2, 2⟩, ⟨13, 3, 2⟩⟩ := by
    decide
  have hreport : (render "a\r\nñb = c\r\nd" ⟨⟨5, 2, 2⟩, ⟨13, 3, 2⟩⟩ "Unused" none).toList.splitOn
      '\n' = ["ERROR: At line 2, column 2:".toList, [], "2 | ñb = c".toList, "     ^^^^^".toList,
        "     Unused".toList] := by
    decide
  rw [hspan, hreport] at hsplit
  injection hsplit with _ hsplit
  injection hsplit with _ hsplit
  injection hsplit with hshown hsplit
  injection hsplit with hcarets _
  exact ⟨hstart, hstop, by decide, front, back, range, hline.unbroken, hshown.symm, hcarets.symm⟩

end Report
end Peg
