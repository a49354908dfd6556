import Peg.Match.Error
import Peg.Match.Value
import Peg.Text.Cursor

/-!
Hosts run the code blocks of grammars. A block sees the part of the input that it stands for and the
labels bound around it, and may end the parse.
-/

namespace Peg

structure CodeContext (α : Type) where
  start : Cursor
  stop : Cursor
  /-- The labels in scope with their values, outermost first. -/
  labels : List (String × Value α)
  /-- The value of the expression that an action belongs to. -/
  value : Option (Value α)

namespace CodeContext

variable {α : Type}

/-- The part of the input that the block stands for, empty for predicates. -/
def text (context : CodeContext α) : String := context.start.textTo context.stop

def offset (context : CodeContext α) : Nat := context.start.offset

def span (context : CodeContext α) : Span := context.start.spanTo context.stop

/-- The value of a label, of the innermost one of that name. -/
def label? (context : CodeContext α) (name : String) : Option (Value α) :=
  context.labels.reverse.lookup name

end CodeContext

inductive CodeError (ε : Type) where
  /-- With an error of its own. -/
  | host (error : ε)
  /-- As if the input were wrong, in the block's words. -/
  | message (text : String)
  /-- As if something else had been expected instead of the matched text. -/
  | expected (description : String)

namespace CodeError

def toParseError {α ε : Type} (context : CodeContext α) : CodeError ε → ParseError ε
  | host error => .host error
  | message text => .refused (.custom text context.span)
  | expected description =>
    .refused (.mismatch [.other description] (some context.text) context.span)

end CodeError

/-- Runs code blocks: `σ` is what the host remembers from one to the next, `α` what actions make,
`ε` its own errors. -/
structure Host (σ α : Type) (ε : Type := String) where
  prepare : String → CodeContext α → σ → Except (CodeError ε) Unit × σ
  action : String → CodeContext α → σ → Except (CodeError ε) (Value α) × σ
  predicate : String → CodeContext α → σ → Except (CodeError ε) Bool × σ

inductive CallKind where
  | initializer
  | action
  | predicate
deriving DecidableEq

structure Call (α : Type) where
  kind : CallKind
  code : String
  context : CodeContext α

/-- The host of grammars without code. It fails on every block. -/
def Host.refusing {α : Type} : Host Unit α :=
  let refuse := fun {β : Type} (code : String) (_ : CodeContext α) (s : Unit) =>
    ((.error (.host ("grammar code is not supported without a host: \x7b" ++ code ++ "\x7d")), s) :
      Except (CodeError String) β × Unit)
  ⟨refuse, refuse, refuse⟩

end Peg
