import Peg.Grammar.Consumption
import Peg.Grammar.Error

/-!
Checks against endless parses: no rule reaches itself before input is consumed, and nothing that may
consume no input is repeated.
-/

namespace Peg

namespace Expr

mutual

/-- The references that may be followed before input is consumed, from left to right, with their
spans. Of a sequence these are the ones up to its first element that always consumes. -/
def leftCalls (consumes : Expr → Bool) : Expr → List (String × Span)
  | ruleRef span name => [(name, span)]
  | sequence _ elements => leftCallsOfElements consumes elements
  | choice _ alternatives => leftCallsOfAlternatives consumes alternatives
  | wrapped _ _ body => body.leftCalls consumes
  | _ => []

def leftCallsOfElements (consumes : Expr → Bool) : List Expr → List (String × Span)
  | [] => []
  | e :: es =>
    e.leftCalls consumes ++ if consumes e then [] else leftCallsOfElements consumes es

def leftCallsOfAlternatives (consumes : Expr → Bool) : List Expr → List (String × Span)
  | [] => []
  | e :: es => e.leftCalls consumes ++ leftCallsOfAlternatives consumes es

end

end Expr

namespace Grammar

/-- Follows the left calls of an expression, depth first, until one leads to a rule in `path`, the
names of the rules passed so far from the last to the first. At most `depth` rules are entered. -/
def findLeftRecursion (grammar : Grammar) : Nat → List String → Expr → Option GrammarError
  | depth, path, e =>
    (e.leftCalls grammar.alwaysConsumes).findSome? fun (name, span) =>
      if name ∈ path then some ⟨span, .leftRecursion (name :: path).reverse⟩
      else
        match depth with
        | 0 => none
        | depth + 1 =>
          (grammar.rule? name).bind fun rule =>
            findLeftRecursion grammar depth (name :: path) rule.expr

/-- The first way in which a rule reaches a rule again without consuming input. No path enters more
rules than there are. -/
def leftRecursion? (grammar : Grammar) : Option GrammarError :=
  grammar.rules.findSome? fun rule =>
    grammar.findLeftRecursion grammar.rules.length [rule.name] rule.expr

def emptyRepetition? (grammar : Grammar) : Option GrammarError :=
  grammar.subterms.findSome? fun e =>
    match e.asRepetition? with
    | some body => if grammar.alwaysConsumes body then none else some ⟨e.span, .emptyRepetition⟩
    | none => none

end Grammar

end Peg
