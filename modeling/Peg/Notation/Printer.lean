import Peg.Grammar.Error
import Peg.Grammar.Expr
import Peg.Notation.Escape

/-!
Grammars as text. Reading the text gives the grammar back, with groups added where the notation
needs them.
-/

namespace Peg

/-- The levels of the notation, from the loosest to the tightest. -/
inductive Level where
  | choice
  | action
  | sequence
  | labeled
  | prefixed
  | suffixed
  | primary
deriving DecidableEq

namespace Level

def rank : Level → Nat
  | choice => 0
  | action => 1
  | sequence => 2
  | labeled => 3
  | prefixed => 4
  | suffixed => 5
  | primary => 6

/-- The text of an expression of level `level` where the notation wants `least` at least. -/
def parenthesize (least level : Level) (text : String) : String :=
  if level.rank < least.rank then "(" ++ text ++ ")" else text

end Level

namespace Notation

def renderCode (code : String) : String :=
  if code.isEmpty then "\x7b\x7d" else "\x7b " ++ code ++ " \x7d"

end Notation

namespace Wrapper

def operandLevel : Wrapper → Level
  | labeled _ => .prefixed
  | named _ | group => .choice
  | action _ => .sequence
  | text | followedBy | notFollowedBy => .suffixed
  | optional | zeroOrMore | oneOrMore => .primary

/-- The wrapper around the text of its operand. Display names have no place inside expressions. -/
def around (wrapper : Wrapper) (operand : String) : String :=
  match wrapper with
  | labeled label => label ++ ":" ++ operand
  | named _ => operand
  | action code => operand ++ " " ++ Notation.renderCode code
  | text => "$" ++ operand
  | optional => operand ++ "?"
  | zeroOrMore => operand ++ "*"
  | oneOrMore => operand ++ "+"
  | group => "(" ++ operand ++ ")"
  | followedBy => "&" ++ operand
  | notFollowedBy => "!" ++ operand

end Wrapper

namespace Expr

def level : Expr → Level
  | literal .. | charClass .. | any _ | ruleRef .. => .primary
  | predicate .. => .prefixed
  | sequence .. => .sequence
  | choice .. => .choice
  | wrapped _ (.named _) body => body.level
  | wrapped _ (.labeled _) _ => .labeled
  | wrapped _ (.action _) _ => .action
  | wrapped _ .text _ | wrapped _ .followedBy _ | wrapped _ .notFollowedBy _ => .prefixed
  | wrapped _ .optional _ | wrapped _ .zeroOrMore _ | wrapped _ .oneOrMore _ => .suffixed
  | wrapped _ .group _ => .primary

mutual

def render : Expr → String
  | literal _ lit => lit.render
  | charClass _ cls => cls.render
  | any _ => "."
  | ruleRef _ name => name
  | predicate _ negated code => (if negated then "!" else "&") ++ Notation.renderCode code
  | sequence _ elements => " ".intercalate (renderOperands .labeled elements)
  | choice _ alternatives => " / ".intercalate (renderOperands .action alternatives)
  | wrapped _ wrapper body =>
    wrapper.around (wrapper.operandLevel.parenthesize body.level body.render)

def renderOperands (least : Level) : List Expr → List String
  | [] => []
  | e :: es => least.parenthesize e.level e.render :: renderOperands least es

end

end Expr

namespace Rule

def render (rule : Rule) : String :=
  let display := match rule.displayName with
    | some name => " " ++ Notation.quote name
    | none => ""
  rule.name ++ display ++ " = " ++ rule.body.render

def nestedDisplayName? (rule : Rule) : Option GrammarError :=
  rule.body.subterms.findSome? fun e =>
    e.asNamed?.map fun (name, _) => ⟨e.span, .nestedDisplayName name rule.name⟩

end Rule

namespace Grammar

/-- The grammar in the notation, which has display names only around the whole expression of a rule.
-/
def render (grammar : Grammar) : Except GrammarError String :=
  match grammar.rules.findSome? Rule.nestedDisplayName? with
  | some e => .error e
  | none =>
    let initializer := match grammar.initializer with
      | some i => Notation.renderCode i.code ++ "\n\n"
      | none => ""
    .ok (initializer ++ "\n".intercalate (grammar.rules.map Rule.render) ++ "\n")

end Grammar

end Peg
