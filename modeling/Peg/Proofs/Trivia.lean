import Mathlib.Data.List.Infix
import Peg.Proofs.Tokens

/-! What stands between tokens. Blanks and comments are skipped up to where the next token begins or
the text ends, whatever the comments say. -/
namespace Peg.Notation

/-- Blanks and comments in a row. A line feed ends a line comment. -/
inductive Trivia : List Char → Prop where
  | nil : Trivia []
  | blank (c : Char) (cs : List Char) (hc : isSpace c = true) (h : Trivia cs) : Trivia (c :: cs)
  | line (comment cs : List Char) (hc : '\n' ∉ comment) (h : Trivia cs) :
      Trivia ('/' :: '/' :: (comment ++ '\n' :: cs))
  | block (comment cs : List Char) (hc : ¬ ['*', '/'] <:+: comment) (h : Trivia cs) :
      Trivia ('/' :: '*' :: (comment ++ '*' :: '/' :: cs))

/-- Trivia that begin with a blank, which no token before them can take for a part of it. -/
structure Gap (cs : List Char) : Prop where
  trivia : Trivia cs
  blank : ∃ c ds, cs = c :: ds ∧ isSpace c = true

/-- A gap or nothing. -/
def Slack (cs : List Char) : Prop := cs = [] ∨ Gap cs

theorem Slack.trivia {cs : List Char} (h : Slack cs) : Trivia cs := by
  rcases h with rfl | h
  · exact .nil
  · exact h.trivia

theorem trivia_blank : Trivia [' '] := .blank ' ' [] (by decide) .nil

theorem trivia_newline : Trivia ['\n'] := .blank '\n' [] (by decide) .nil

theorem gap_blank : Gap [' '] := ⟨trivia_blank, ' ', [], rfl, by decide⟩

theorem gap_newline : Gap ['\n'] := ⟨trivia_newline, '\n', [], rfl, by decide⟩

/-- No blank and no comment comes next. -/
def Bare (rest : List Char) : Prop :=
  ∀ a, rest.head? = some a → isSpace a = false ∧
    (a = '/' → rest.tail.head? ≠ some '/' ∧ rest.tail.head? ≠ some '*')

theorem bare_nil : Bare [] := nofun

theorem bare_cons {a : Char} {rest : List Char} (hs : isSpace a = false) (hn : a ≠ '/') :
    Bare (a :: rest) := by
  intro b hb
  cases hb
  exact ⟨hs, fun he => absurd he hn⟩

theorem bare_slash {rest : List Char} (h : rest.head? ≠ some '/') (h' : rest.head? ≠ some '*') :
    Bare ('/' :: rest) := by
  intro a ha
  cases ha
  exact ⟨by decide, fun _ => ⟨h, h'⟩⟩

section Pieces

variable {rest : List Char}

theorem triviaPiece_bare (h : Bare rest) : Reads triviaPiece [] rest (· = none) := by
  intro position
  refine ⟨none, position, ?_, rfl⟩
  cases rest with
  | nil => rfl
  | cons a rest =>
    obtain ⟨hs, hc⟩ := h a rfl
    simp only [triviaPiece, List.nil_append]
    rw [if_neg (by rw [hs]; exact Bool.false_ne_true)]
    by_cases ha : a = '/'
    · obtain ⟨h₁, h₂⟩ := hc ha
      rw [if_neg (by simp [ha]; exact h₁), if_neg (by simp [ha]; exact h₂)]
    · rw [if_neg (by simp [ha]), if_neg (by simp [ha])]

def Piece (cs rest : List Char) : Prop :=
  Reads triviaPiece cs rest fun found => ∃ a, found = some a ∧ True

theorem piece_blank {c : Char} (hc : isSpace c = true) : Piece [c] rest :=
  fun position => ⟨some (), position.advance c, if_pos hc, (), rfl, trivial⟩

/-- A line comment reaches up to the line feed. -/
theorem piece_line {comment : List Char} (hc : '\n' ∉ comment) :
    Piece ('/' :: '/' :: comment) ('\n' :: rest) := by
  intro position
  have hother : ∀ c ∈ '/' :: '/' :: comment, decide (c ≠ '\n') = true := by
    intro c hm
    rw [decide_eq_true_eq]
    rintro rfl
    simp only [List.mem_cons] at hm
    rcases hm with hm | hm | hm
    · exact absurd hm (by decide)
    · exact absurd hm (by decide)
    · exact hc hm
  have htaken : ('/' :: '/' :: comment ++ '\n' :: rest).takeWhile (· ≠ '\n') =
      '/' :: '/' :: comment := by
    rw [List.takeWhile_append_of_pos hother, List.takeWhile_cons_of_neg (by decide),
      List.append_nil]
  refine ⟨some (), position.advanceBy ('/' :: '/' :: comment), ?_, (), rfl, trivial⟩
  have hskip := skip_append ('/' :: '/' :: comment) ('\n' :: rest) position
  have hrun : triviaPiece ⟨position, '/' :: '/' :: comment ++ '\n' :: rest⟩ =
      .ok (some (), (Cursor.takeWhile (· ≠ '\n')
        ⟨position, '/' :: '/' :: comment ++ '\n' :: rest⟩).2) := rfl
  rw [hrun, Cursor.takeWhile]
  dsimp only
  rw [htaken, hskip]

/-- The mark that closes a comment is found behind it. -/
theorem commentLength_append {comment : List Char} (hc : ¬ ['*', '/'] <:+: comment)
    (rest : List Char) : commentLength (comment ++ '*' :: '/' :: rest) = some comment.length := by
  induction comment with
  | nil => rfl
  | cons c comment ih =>
    rw [List.infix_cons_iff, not_or] at hc
    -- A mark here would stand in the comment, or reach over its end into the closing one.
    have hmark : ¬ (c = '*' && (comment ++ '*' :: '/' :: rest).head? = some '/') = true := by
      simp only [Bool.and_eq_true, decide_eq_true_eq, not_and]
      rintro rfl
      cases comment with
      | nil => exact fun hd => absurd (Option.some.inj hd) (by decide)
      | cons d comment =>
        intro hd
        cases hd
        exact hc.1 ⟨comment, rfl⟩
    rw [List.cons_append, commentLength, if_neg hmark, ih hc.2]
    rfl

theorem piece_block {comment : List Char} (hc : ¬ ['*', '/'] <:+: comment) :
    Piece ('/' :: '*' :: (comment ++ ['*', '/'])) rest := by
  intro position
  have hlength : commentLength (comment ++ ['*', '/'] ++ rest) = some comment.length := by
    rw [List.append_assoc]
    exact commentLength_append hc rest
  have hskip := skip_append ('/' :: '*' :: (comment ++ ['*', '/'])) rest position
  have hcount : ('/' :: '*' :: (comment ++ ['*', '/'])).length = comment.length + 4 := by simp
  refine ⟨some (), position.advanceBy ('/' :: '*' :: (comment ++ ['*', '/'])), ?_, (), rfl, trivial⟩
  rw [hcount] at hskip
  rw [← hskip]
  unfold triviaPiece
  simp only [List.cons_append, List.head?_cons, List.tail_cons, hlength]
  rfl

end Pieces

section Skipping

variable {gap next rest : List Char}

theorem collects_trivia (hg : Trivia gap) (hb : Bare next) :
    ∃ items : List Unit, Collects triviaPiece (fun _ _ => True) items gap next := by
  induction hg with
  | nil => exact ⟨[], .nil [] next (triviaPiece_bare hb)⟩
  | blank c cs hc _ ih =>
    obtain ⟨items, ih⟩ := ih
    exact ⟨() :: items, .cons () items [c] cs next (List.cons_ne_nil c []) (piece_blank hc) ih⟩
  | line comment cs hc _ ih =>
    obtain ⟨items, ih⟩ := ih
    have hfeed : Collects triviaPiece (fun _ _ => True) (() :: items) ('\n' :: cs) next :=
      .cons () items ['\n'] cs next (List.cons_ne_nil _ _) (piece_blank (by decide)) ih
    exact ⟨() :: () :: items, .cons () _ ('/' :: '/' :: comment) ('\n' :: cs) next
      (List.cons_ne_nil _ _) (piece_line hc) hfeed⟩
  | block comment cs hc _ ih =>
    obtain ⟨items, ih⟩ := ih
    have hcons : Collects triviaPiece (fun _ _ => True) (() :: items)
        ('/' :: '*' :: (comment ++ ['*', '/']) ++ cs) next :=
      .cons () items _ cs next (List.cons_ne_nil _ _) (piece_block hc) ih
    rw [List.cons_append, List.cons_append, List.append_assoc] at hcons
    exact ⟨() :: items, hcons⟩

/-- Trivia are skipped. -/
theorem reads_trivia (hg : Trivia gap) (hb : Bare next) :
    Reads skipTrivia gap next fun _ => True := by
  obtain ⟨items, hc⟩ := collects_trivia hg hb
  intro position
  obtain ⟨found, position', hr, -⟩ := hc.reads position
  exact ⟨(), position', run_bind hr, trivial⟩

def ahead (rest : List Char) : List Char :=
  match skipTrivia ⟨.start, rest⟩ with
  | .ok (_, c) => c.rest
  | .error _ => rest

theorem ahead_append (hg : Trivia gap) (hb : Bare next) : ahead (gap ++ next) = next := by
  obtain ⟨⟨⟩, position', hr, -⟩ := reads_trivia hg hb .start
  unfold ahead
  rw [hr]

theorem ahead_bare (hb : Bare next) : ahead next = next := ahead_append .nil hb

/-- Behind trivia a token begins or the text ends. -/
def Clear (rest : List Char) : Prop := ∃ gap next, Trivia gap ∧ Bare next ∧ rest = gap ++ next

theorem clear_append (hg : Trivia gap) (hb : Bare next) : Clear (gap ++ next) :=
  ⟨gap, next, hg, hb, rfl⟩

theorem clear_bare (hb : Bare next) : Clear next := clear_append .nil hb

/-- Trivia are skipped up to what follows behind them. -/
theorem run_skipTrivia (h : Clear rest) (position : Position) :
    ∃ position', skipTrivia ⟨position, rest⟩ = .ok ((), ⟨position', ahead rest⟩) := by
  obtain ⟨gap, next, hg, hb, rfl⟩ := h
  obtain ⟨⟨⟩, position', hr, -⟩ := reads_trivia hg hb position
  rw [ahead_append hg hb]
  exact ⟨position', hr⟩

end Skipping

end Peg.Notation
