import Peg.Text.Position

/-!
A cursor is a place in a text: its position together with the characters that follow. The notation
is read and inputs are matched by moving cursors, so positions are known without searching.
-/

namespace Peg

structure Cursor where
  position : Position
  rest : List Char

namespace Cursor

def ofText (text : String) : Cursor := ⟨.start, text.toList⟩

def offset (c : Cursor) : Nat := c.position.offset

def peek (c : Cursor) : Option Char := c.rest.head?

def atEnd (c : Cursor) : Bool := c.rest.isEmpty

/-- One character further. At the end of the text the cursor stays. -/
def next (c : Cursor) : Cursor :=
  match c.rest with
  | [] => c
  | a :: rest => ⟨c.position.advance a, rest⟩

def skip : Nat → Cursor → Cursor
  | 0, c => c
  | n + 1, c => skip n c.next

def toEnd (c : Cursor) : Cursor := skip c.rest.length c

def takeWhile (p : Char → Bool) (c : Cursor) : List Char × Cursor :=
  let taken := c.rest.takeWhile p
  (taken, skip taken.length c)

/-- The cursor behind the characters `expected`, if these are the ones that follow. -/
def skipPrefix : List Char → Cursor → Option Cursor
  | [], c => some c
  | e :: es, c => if c.peek = some e then skipPrefix es c.next else none

def spanTo (start stop : Cursor) : Span := ⟨start.position, stop.position⟩

/-- The span of the next character, empty at the end of the text. -/
def charSpan (c : Cursor) : Span := c.spanTo c.next

/-- The characters that fill the first `bytes` bytes of `cs`. -/
def takeBytes : Nat → List Char → List Char
  | _, [] => []
  | bytes, c :: cs => if bytes = 0 then [] else c :: takeBytes (bytes - c.utf8Size) cs

def textTo (start stop : Cursor) : String :=
  String.ofList (takeBytes (stop.offset - start.offset) start.rest)

end Cursor

end Peg
