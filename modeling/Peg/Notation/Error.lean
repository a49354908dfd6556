import Peg.Text.Report

/-!
The ways in which a text fails to be a grammar in the notation.
-/

namespace Peg

inductive Fault where
  /-- The text holds no rule at all. -/
  | noRule
  /-- A rule begins with a character that is not the start of a name. -/
  | badRuleName (digit : Bool)
  | missingAssignment
  /-- No expression begins with the character that is there. -/
  | expectedExpression (found : Char)
  /-- No operand follows a prefix operator. -/
  | expectedOperand (operator : Char)
  | unclosedGroup (opened : Position)
  /-- A literal whose closing quote is missing. The text may even end within an escape. -/
  | unterminatedLiteral (opened : Position) (quote : Char) (inEscape : Bool)
  | unterminatedClass (opened : Position) (inEscape : Bool)
  | unterminatedCode (opened : Position)
  | unterminatedComment (opened : Position)
  | invalidEscape
  /-- A range of a class whose ends are in the wrong order. -/
  | invalidRange (first last : Char)
  | reservedWord (word : String)
  | unexpectedEnd

namespace Fault

def message : Fault → String
  | noRule | badRuleName _ => "Expected a rule declaration"
  | missingAssignment => "Expected rule assignment operator (=)"
  | expectedExpression _ => "Expected an expression"
  | expectedOperand operator => s!"Expected a label or an expression after '{operator}'"
  | unclosedGroup _ => "Expected a closing parenthesis"
  | unterminatedLiteral .. => "Unterminated string literal"
  | unterminatedClass .. => "Unterminated character class"
  | unterminatedCode _ => "Unterminated code block"
  | unterminatedComment _ => "Unterminated multi-line comment"
  | invalidEscape => "Invalid escape sequence"
  | invalidRange first last => s!"Invalid character range: {first}-{last}"
  | reservedWord word => s!"Identifier '{word}' is a reserved word"
  | unexpectedEnd => "Unexpected end of grammar"

def tip : Fault → Option String
  | noRule => some "a grammar needs at least one rule, such as: start = \"a\""
  | badRuleName true => some "digits are not allowed to begin a rule's name"
  | badRuleName false =>
    some "only alphabetic and underscores characters are allowed to begin a rule's name"
  | missingAssignment => some "you may have forgot to add the rule assignment operator '='"
  | expectedExpression found =>
    if found = '\x7b' then
      some "code blocks must follow an expression, or a '&' / '!' predicate operator"
    else some ("you may either open a group with '(', a string with '\"', a class with '[', "
      ++ "or specify a rule's name")
  | expectedOperand _ => none
  | unclosedGroup _ => some "you may need to add a closing parenthesis ')'"
  | unterminatedLiteral _ quote inEscape =>
    if inEscape then none
    else some ("you may need to add a closing quote '" ++ quote.toString ++ "'")
  | unterminatedClass _ inEscape =>
    if inEscape then none else some "you may need to add a closing bracket ']'"
  | unterminatedCode _ => some "you may need to add a closing brace '\x7d'"
  | unterminatedComment _ => some "you can close the comment with '*/'"
  | invalidEscape => some "hexadecimal escapes are written \\xHH, \\uHHHH or \\u\x7bH...\x7d"
  | invalidRange .. => some "the range's start must not come after its end"
  | reservedWord _ => some "try to use another name"
  | unexpectedEnd =>
    some "you need to provide an expression, such as a group, a string or a rule's name"

end Fault

structure NotationError where
  span : Span
  fault : Fault

namespace NotationError

def message (e : NotationError) : String := e.fault.message

def tip (e : NotationError) : Option String := e.fault.tip

def describe (e : NotationError) : String :=
  s!"{e.message} (at {e.span.start.describe})"

def report (source : String) (e : NotationError) : String :=
  Report.render source e.span e.message e.tip

end NotationError

end Peg
