/-!
Positions and spans of a text, and the index that finds the position of a byte offset.
-/

namespace Peg

/-- A point of a text. `offset` counts UTF-8 bytes from 0; `line` and `column` count from 1, columns
in characters. -/
structure Position where
  offset : Nat
  line : Nat
  column : Nat
deriving DecidableEq

namespace Position

def start : Position := ⟨0, 1, 1⟩

/-- The position behind the character `c` that stands at `p`. Only a line feed ends a line. -/
def advance (p : Position) (c : Char) : Position :=
  if c = '\n' then ⟨p.offset + c.utf8Size, p.line + 1, 1⟩
  else ⟨p.offset + c.utf8Size, p.line, p.column + 1⟩

/-- The position behind the characters `cs` that stand at `p`, found by a plain scan. -/
def advanceBy (p : Position) (cs : List Char) : Position :=
  cs.foldl advance p

def describe (p : Position) : String :=
  s!"line {p.line}, column {p.column}"

end Position

/-- The part of a text from `start` up to, but without, `stop`. -/
structure Span where
  start : Position
  stop : Position
deriving DecidableEq

namespace Span

/-- The empty span at the start of a text, used where no span is known. -/
def none : Span := ⟨.start, .start⟩

def length (s : Span) : Nat := s.stop.offset - s.start.offset

def isEmpty (s : Span) : Bool := s.length == 0

/-- The span as lines and columns, such as `1:4-2:1`. -/
def describe (s : Span) : String :=
  s!"{s.start.line}:{s.start.column}-{s.stop.line}:{s.stop.column}"

end Span

/-- The start of a line: its offset, and the text from there on. -/
structure LineStart where
  offset : Nat
  rest : List Char

/-- The line starts of a text, for finding positions without a scan from its beginning. `later`
holds the lines after the first one. -/
structure LineIndex where
  size : Nat
  first : LineStart
  later : List LineStart

namespace LineIndex

def startsIn (offset : Nat) : List Char → List LineStart
  | [] => []
  | c :: cs =>
    let after := offset + c.utf8Size
    if c = '\n' then ⟨after, cs⟩ :: startsIn after cs else startsIn after cs

def ofText (text : String) : LineIndex :=
  ⟨text.utf8ByteSize, ⟨0, text.toList⟩, startsIn 0 text.toList⟩

/-- The number of lines, which is one more than the number of line feeds. -/
def lineCount (index : LineIndex) : Nat := index.later.length + 1

def columnsIn (bytes : Nat) : List Char → Nat
  | [] => 0
  | c :: cs => if bytes = 0 then 0 else columnsIn (bytes - c.utf8Size) cs + 1

/-- The position of a byte offset, which must lie on a character boundary. Offsets past the end of
the text mean its end. -/
def position (index : LineIndex) (offset : Nat) : Position :=
  let offset := min offset index.size
  let reached := index.later.takeWhile fun line => line.offset ≤ offset
  let line := reached.getLast?.getD index.first
  ⟨offset, reached.length + 1, columnsIn (offset - line.offset) line.rest + 1⟩

def span (index : LineIndex) (start stop : Nat) : Span :=
  ⟨index.position start, index.position stop⟩

end LineIndex

end Peg
