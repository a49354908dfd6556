import Peg.Text.Position

/-!
Reports show a message under the line of the source that it is about.
-/

namespace Peg.Report

/-- Line `n` of a text, counted from 1 and without its line feed. Lines that the text does not have
are empty. -/
def lineAt : Nat → List Char → List Char
  | 0, _ => []
  | 1, cs => cs.takeWhile (· ≠ '\n')
  | n + 2, cs =>
    match cs.dropWhile (· ≠ '\n') with
    | [] => []
    | _ :: rest => lineAt (n + 1) rest

def dropReturn (line : List Char) : List Char :=
  if line.getLast? = some '\r' then line.dropLast else line

/-- The lines of a message, `line` holding the characters of the current one from last to first. A
line feed, or a carriage return and a line feed, ends a line; what follows the last of them is a
line unless it is empty. -/
def linesFrom (line : List Char) : List Char → List String
  | [] => if line.isEmpty then [] else [String.ofList line.reverse]
  | c :: cs =>
    if c = '\n' then
      let ended := if line.head? = some '\r' then line.tail else line
      String.ofList ended.reverse :: linesFrom [] cs
    else linesFrom (c :: line) cs

def lines (message : String) : List String := linesFrom [] message.toList

/-- The number of carets under a span that starts on the line `shown`: its characters on that line,
but at least one. Columns count from 1, so no part of the line follows column 0. -/
def underline (span : Span) (shown : List Char) : Nat :=
  if span.stop.line = span.start.line then max (span.stop.column - span.start.column) 1
  else if span.start.column = 0 then 1
  else max (shown.length - (span.start.column - 1)) 1

/-- The message, and the tip if there is one, under the line of `source` where `span` starts, with
carets below the part of the line that lies in the span. -/
def render (source : String) (span : Span) (message : String) (tip : Option String) : String :=
  let line := span.start.line
  let column := span.start.column
  let shown := dropReturn (lineAt line source.toList)
  let number := toString line
  let padding := String.ofList (List.replicate (column + number.length + 2) ' ')
  let carets := String.ofList (List.replicate (underline span shown) '^')
  let body := String.join ((lines message).map fun l => "\n" ++ padding ++ l)
  let advice := match tip with
    | some tip => "\n" ++ padding ++ "Tip: " ++ tip
    | none => ""
  "ERROR: At line " ++ number ++ ", column " ++ toString column ++ ":\n\n" ++ number ++ " | "
    ++ String.ofList shown ++ "\n" ++ padding ++ carets ++ body ++ advice

end Peg.Report
