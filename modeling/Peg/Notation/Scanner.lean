import Peg.Grammar.Terminal
import Peg.Notation.Error
import Peg.Notation.Word
import Peg.Text.Cursor
import Peg.Text.Hex

/-!
The tokens of the notation. A reader moves a cursor over what it reads, or fails with an error.
-/

namespace Peg.Notation

abbrev Reader := StateT Cursor (Except NotationError)

def failFrom {α : Type} (start : Cursor) (fault : Fault) : Reader α := fun c =>
  .error ⟨start.spanTo c, fault⟩

def failHere {α : Type} (fault : Fault) : Reader α := fun c =>
  .error ⟨c.charSpan, fault⟩

def failAtEnd {α : Type} (fault : Fault) : Reader α := fun c =>
  .error ⟨c.toEnd.charSpan, fault⟩

def spanFrom (start : Cursor) : Reader Span := fun c => .ok (start.spanTo c, c)

def peek : Reader (Option Char) := fun c => .ok (c.peek, c)

def advance : Reader Unit := fun c => .ok ((), c.next)

/-- Moves over the next character if it is `expected`, and says whether it was. -/
def eat (expected : Char) : Reader Bool := fun c =>
  if c.peek = some expected then .ok (true, c.next) else .ok (false, c)

/-- What `read` answers from here, without moving. An error counts as `false`. -/
def lookingAt (read : Reader Bool) : Reader Bool := fun c =>
  match read c with
  | .ok (found, _) => .ok (found, c)
  | .error _ => .ok (false, c)

/-- Runs `step` until it gives nothing, once more than `bound` has characters at most. -/
def collectWithin {α : Type} (step : Reader (Option α)) (bound : List Char) : Reader (List α) := do
  match ← step with
  | none => return []
  | some item =>
    match bound with
    | [] => return [item]
    | _ :: bound => return item :: (← collectWithin step bound)

/-- Runs `step` until it gives nothing. As `step` moves whenever it gives something, the number of
characters left bounds the number of its runs. -/
def collect {α : Type} (step : Reader (Option α)) : Reader (List α) := fun c =>
  collectWithin step c.rest c

/-- The number of characters of a comment before the mark that closes it. -/
def commentLength : List Char → Option Nat
  | [] => none
  | c :: cs => if c = '*' && cs.head? = some '/' then some 0 else (commentLength cs).map (· + 1)

def triviaPiece : Reader (Option Unit) := fun c =>
  match c.rest with
  | [] => .ok (none, c)
  | a :: rest =>
    if isSpace a then .ok (some (), c.next)
    -- The line feed behind a line comment is a blank of its own.
    else if a = '/' && rest.head? = some '/' then .ok (some (), (c.takeWhile (· ≠ '\n')).2)
    else if a = '/' && rest.head? = some '*' then
      match commentLength rest.tail with
      | some n => .ok (some (), c.skip (n + 4))
      | none => failAtEnd (.unterminatedComment c.position) c
    else .ok (none, c)

def skipTrivia : Reader Unit := do
  let _ ← collect triviaPiece

def identifier : Reader (Option String) := fun c =>
  if c.peek.any isNameStart then
    let (name, rest) := c.takeWhile isNamePart
    .ok (some (String.ofList name), rest)
  else .ok (none, c)

def checkReserved (word : String) (start stop : Cursor) : Reader Unit := fun c =>
  if word ∈ reservedWords then .error ⟨start.spanTo stop, .reservedWord word⟩ else .ok ((), c)

def hexChar? (digits : List Char) : Option Char :=
  if digits.isEmpty then none
  else
    match Hex.value? digits with
    | some code => if code.isValidChar then some (Char.ofNat code) else none
    | none => none

def hexEscape (backslash : Cursor) (count : Nat) : Reader Char := fun c =>
  let digits := c.rest.take count
  match if digits.length = count then hexChar? digits else none with
  | some decoded => .ok (decoded, c.skip count)
  | none => failFrom backslash .invalidEscape c

/-- The number of characters before the next closing brace, or 0 if there is none. -/
def braceDistance (cs : List Char) : Nat :=
  if '\x7d' ∈ cs then (cs.takeWhile (· ≠ '\x7d')).length else 0

/-- Reads an escape, whose backslash is the next character. `unterminated` is the fault of a text
that ends behind the backslash. -/
def escape (unterminated : Fault) : Reader Char := do
  let backslash ← get
  advance
  match ← peek with
  | none => failHere unterminated
  | some c =>
    advance
    match c with
    | 'n' => return '\n'
    | 'r' => return '\r'
    | 't' => return '\t'
    | 'b' => return '\x08'
    | 'f' => return '\x0c'
    | 'v' => return '\x0b'
    -- A digit behind it would make an octal escape, which the notation does not have.
    | '0' => return if (← peek).any Char.isDigit then '0' else '\x00'
    | 'x' => hexEscape backslash 2
    | 'u' =>
      if ← eat '\x7b' then
        let decoded ← hexEscape backslash (braceDistance (← get).rest)
        -- The digits reach up to the closing brace.
        advance
        return decoded
      else hexEscape backslash 4
    | other => return other

def lineContinuation : Reader (Option Unit) := fun c =>
  if c.peek = some '\\' && c.next.peek = some '\n' then .ok (some (), c.skip 2) else .ok (none, c)

def skipContinuations : Reader Unit := do
  let _ ← collect lineContinuation

/-- Reads a character of a quoted or bracketed token, or nothing before `closing`, the character
that closes it. The faults are those of a text that ends too early, behind a backslash or elsewhere.
-/
def innerChar (closing : Char) (inEscape elsewhere : Fault) : Reader (Option Char) := do
  skipContinuations
  match ← peek with
  | none => failHere elsewhere
  | some c =>
    if c = closing then return none
    else if c = '\\' then return some (← escape inEscape)
    else if c = '\n' then failHere elsewhere
    else
      advance
      return some c

def stringLiteral : Reader String := do
  let opened := (← get).position
  let quote := (← peek).getD '"'
  advance
  let chars ← collect (innerChar quote (.unterminatedLiteral opened quote true)
    (.unterminatedLiteral opened quote false))
  advance
  return String.ofList chars

/-- Reads a character of the class opened at `opened`, or nothing before the closing bracket. -/
def classChar (opened : Position) : Reader (Option Char) :=
  innerChar ']' (.unterminatedClass opened true) (.unterminatedClass opened false)

/-- Reads a character or a range of the class opened at `opened`, or nothing before the closing
bracket. A dash right before the bracket is a character. -/
def classPart (opened : Position) : Reader (Option (List ClassPart)) := do
  match ← classChar opened with
  | none => return none
  | some first =>
    let here ← get
    if here.peek ≠ some '-' || here.next.peek = some ']' then return some [.single first]
    else
      advance
      match ← classChar opened with
      -- Only a line continuation stood between the dash and the bracket.
      | none => return some [.single first, .single '-']
      | some last =>
        if last < first then failHere (.invalidRange first last)
        else return some [.range first last]

def charClass : Reader CharClass := do
  let opened := (← get).position
  advance
  let inverted ← eat '^'
  let parts ← collect (classPart opened)
  advance
  return ⟨parts.flatten, inverted, ← eat 'i'⟩

/-- The number of characters before the brace that closes a block, `depth` inner blocks being open.
-/
def codeLength : Nat → List Char → Option Nat
  | _, [] => none
  | depth, c :: cs =>
    if c = '\x7b' then (codeLength (depth + 1) cs).map (· + 1)
    else if c = '\x7d' then
      match depth with
      | 0 => some 0
      | depth + 1 => (codeLength depth cs).map (· + 1)
    else (codeLength depth cs).map (· + 1)

/-- Reads a code block without the blanks at its ends; the next character is its opening brace. -/
def codeBlock : Reader String := fun c =>
  let inside := c.next
  match codeLength 0 inside.rest with
  | some n =>
    .ok (String.ofList (Unicode.trimBlank (inside.rest.take n)), inside.skip (n + 1))
  | none => failAtEnd (.unterminatedCode c.position) c

end Peg.Notation
