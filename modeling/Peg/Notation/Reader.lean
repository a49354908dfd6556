import Peg.Grammar.Expr
import Peg.Notation.Scanner

/-!
Reading grammars. Expressions are read by levels, from choices down to primaries; groups lead back
to the top, so each level takes the reader of `nested` expressions.
-/

namespace Peg.Notation

def beginsPrimary (c : Char) : Bool :=
  c == '"' || c == '\'' || c == '[' || c == '.' || c == '(' || isNameStart c

def isQuote (c : Char) : Bool := c == '"' || c == '\''

def primary (nested : Reader Expr) : Reader Expr := do
  let start ← get
  match start.peek with
  | none => failHere .unexpectedEnd
  | some c =>
    if isQuote c then
      let text ← stringLiteral
      let ignoreCase ← eat 'i'
      return .literal (← spanFrom start) ⟨text, ignoreCase⟩
    else if c = '[' then
      let members ← charClass
      return .charClass (← spanFrom start) members
    else if c = '.' then
      advance
      return .any (← spanFrom start)
    else if c = '(' then
      advance
      skipTrivia
      let body ← nested
      skipTrivia
      if ← eat ')' then return .wrapped (← spanFrom start) .group body
      else failHere (.unclosedGroup start.position)
    else
      match ← identifier with
      | some name =>
        checkReserved name start (← get)
        return .ruleRef (← spanFrom start) name
      | none => failHere (.expectedExpression c)

def suffixOperator? (c : Char) : Option Wrapper :=
  match c with
  | '?' => some .optional
  | '*' => some .zeroOrMore
  | '+' => some .oneOrMore
  | _ => none

def suffixed (nested : Reader Expr) : Reader Expr := do
  let start ← get
  let body ← primary nested
  let behind ← get
  skipTrivia
  match (← peek).bind suffixOperator? with
  | some wrapper =>
    advance
    return .wrapped (← spanFrom start) wrapper body
  | none =>
    set behind
    return body

def prefixOperator? (c : Char) : Option Wrapper :=
  match c with
  | '$' => some .text
  | '&' => some .followedBy
  | '!' => some .notFollowedBy
  | _ => none

def prefixed (nested : Reader Expr) : Reader Expr := do
  let start ← get
  match start.peek.bind fun c => (prefixOperator? c).map fun wrapper => (c, wrapper) with
  | none => suffixed nested
  | some (operator, wrapper) =>
    advance
    skipTrivia
    let following ← peek
    if following = some '\x7b' && operator ≠ '$' then
      let code ← codeBlock
      return .predicate (← spanFrom start) (operator == '!') code
    else if following.any beginsPrimary then
      let body ← suffixed nested
      return .wrapped (← spanFrom start) wrapper body
    else failHere (.expectedOperand operator)

def label : Reader (Option String) := do
  let start ← get
  match ← identifier with
  | none => return none
  | some name =>
    let stop ← get
    skipTrivia
    if ← eat ':' then
      checkReserved name start stop
      return some name
    else
      set start
      return none

def labeled (nested : Reader Expr) : Reader Expr := do
  let start ← get
  match ← label with
  | none => prefixed nested
  | some name =>
    skipTrivia
    let body ← prefixed nested
    return .wrapped (← spanFrom start) (.labeled name) body

/-- Whether the declaration of a rule follows: a name, maybe a display name, and the operator. -/
def atRule : Reader Bool := lookingAt do
  match ← identifier with
  | none => return false
  | some _ =>
    skipTrivia
    if (← peek).any isQuote then
      let _ ← stringLiteral
      skipTrivia
    return (← peek) = some '='

def atElement : Reader Bool := do
  match ← peek with
  | none => return false
  | some c =>
    -- A name may be the reference that goes on with the sequence or the start of the next rule.
    if isNameStart c then return !(← atRule)
    else return beginsPrimary c || (prefixOperator? c).isSome

/-- Reads what `item` gives behind trivia, if `ready` holds there, and stays where it is otherwise.
-/
def further {α : Type} (ready : Reader Bool) (item : Reader α) : Reader (Option α) := do
  let behind ← get
  skipTrivia
  if ← ready then
    return some (← item)
  else
    set behind
    return none

def sequence (nested : Reader Expr) : Reader Expr := do
  let start ← get
  let first ← labeled nested
  let others ← collect (further atElement (labeled nested))
  if others.isEmpty then return first
  else return .sequence (← spanFrom start) (first :: others)

def action (nested : Reader Expr) : Reader Expr := do
  let start ← get
  let body ← sequence nested
  let atCode : Reader Bool := return (← peek) = some '\x7b'
  match ← further atCode codeBlock with
  | none => return body
  | some code => return .wrapped (← spanFrom start) (.action code) body

def choice (nested : Reader Expr) : Reader Expr := do
  let start ← get
  let first ← action nested
  let others ← collect (further (eat '/') do
    skipTrivia
    action nested)
  if others.isEmpty then return first
  else return .choice (← spanFrom start) (first :: others)

/-- Reads an expression with groups nested at most `depth` deep. A text cannot nest deeper than it
has characters. -/
def expression : Nat → Reader Expr
  | 0 => failHere .unexpectedEnd
  | depth + 1 => choice (expression depth)

/-- Reads the display name of a rule and where it starts, if there is one. -/
def displayName : Reader (Option (String × Cursor)) := do
  let start ← get
  if start.peek.any isQuote then
    let name ← stringLiteral
    skipTrivia
    return some (name, start)
  else return none

def rule : Reader Rule := do
  let start ← get
  match ← identifier with
  | none => failHere (.badRuleName ((← peek).any Char.isDigit))
  | some name =>
    checkReserved name start (← get)
    skipTrivia
    let display ← displayName
    if ← eat '=' then
      skipTrivia
      let body ← expression ((← get).rest.length + 1)
      let expr ← match display with
        | none => pure body
        | some (text, named) => do pure (Expr.wrapped (← spanFrom named) (.named text) body)
      -- The semicolon does not belong to the rule.
      let span ← spanFrom start
      let _ ← further (eat ';') (pure ())
      return ⟨name, expr, span⟩
    else failHere .missingAssignment

def initializer : Reader (Option Initializer) := do
  let start ← get
  if start.peek = some '\x7b' then
    let code ← codeBlock
    let span ← spanFrom start
    skipTrivia
    let _ ← eat ';'
    return some ⟨code, span⟩
  else return none

def grammar : Reader Grammar := do
  let start ← get
  skipTrivia
  let initializer ← initializer
  let rules ← collect do
    skipTrivia
    if (← get).atEnd then return none else return some (← rule)
  if rules.isEmpty then failHere .noRule
  else return ⟨initializer, rules, ← spanFrom start⟩

end Peg.Notation

namespace Peg

/-- The grammar that a text writes. Only the notation is checked. -/
def Grammar.parse (text : String) : Except NotationError Grammar :=
  (Notation.grammar.run (Cursor.ofText text)).map (·.1)

end Peg
