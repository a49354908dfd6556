import Peg.Grammar.Error
import Peg.Grammar.Expr

/-!
Checks on names: every rule is declared once, every reference and every start rule is declared.
-/

namespace Peg

namespace Grammar

/-- The first rule in `rules` whose name is that of a rule in `declared` or of an earlier one. -/
def findDuplicate (declared : List Rule) : List Rule → Option GrammarError
  | [] => none
  | rule :: rules =>
    match declared.find? (·.name == rule.name) with
    | some first => some ⟨rule.span, .duplicateRule rule.name first.span.start⟩
    | none => findDuplicate (declared ++ [rule]) rules

def duplicateRule? (grammar : Grammar) : Option GrammarError :=
  findDuplicate [] grammar.rules

def undefinedRule? (grammar : Grammar) : Option GrammarError :=
  grammar.subterms.findSome? fun e =>
    match e.asRef? with
    | some name => if (grammar.rule? name).isSome then none else some ⟨e.span, .undefinedRule name⟩
    | none => none

/-- What is wrong with the names of the start rules: there is none, or one is not declared. -/
def badStartRule? (grammar : Grammar) (startRules : List String) : Option GrammarError :=
  if startRules.isEmpty then some ⟨grammar.span, .noStartRule⟩
  else
    (startRules.find? fun name => (grammar.rule? name).isNone).map fun name =>
      ⟨grammar.span, .unknownStartRule name⟩

end Grammar

end Peg
