import Peg.Compile.Options
import Peg.Grammar.Error
import Peg.Grammar.Expr
import Peg.Program.Node

/-!
Assembly of programs. Rules that are not declared are found here too, as the checks that look for
them may have been left out.
-/

namespace Peg

/-- Assembles a part of a program, with the table of the expectations met so far. -/
abbrev Assembler := StateT (List Expectation) (Except GrammarError)

/-- The index of an expectation, which joins the table if it is new. -/
def intern (e : Expectation) : Assembler ExpectationId := fun table =>
  match table.idxOf? e with
  | some id => .ok (id, table)
  | none => .ok (table.length, table ++ [e])

namespace Wrapper

def assemble : Wrapper → Assembler Operator
  | labeled label => return .labeled label
  | named name => return .named (← intern (.other name))
  | action code => return .action code
  | text => return .text
  | optional => return .optional
  | zeroOrMore => return .zeroOrMore
  | oneOrMore => return .oneOrMore
  | group => return .group
  | followedBy => return .followedBy
  | notFollowedBy => return .notFollowedBy

end Wrapper

namespace Expr

mutual

def assemble (ruleIndex : String → Option RuleId) (forSpeed : Bool) : Expr → Assembler Node
  | literal _ lit => return .literal (.ofLiteral lit) (← intern (.literal lit))
  | charClass _ members =>
    return .charClass (.ofClass members forSpeed) (← intern (.charClass members))
  | any _ => return .any (← intern .any)
  | ruleRef span name =>
    match ruleIndex name with
    | some id => return .ruleRef id
    | none => throw ⟨span, .undefinedRule name⟩
  | predicate _ negated code => return .predicate negated code
  | sequence _ elements => return .sequence (← assembleAll ruleIndex forSpeed elements)
  | choice _ alternatives => return .choice (← assembleAll ruleIndex forSpeed alternatives)
  | wrapped _ wrapper body => do
    let operator ← wrapper.assemble
    return .wrapped operator (← body.assemble ruleIndex forSpeed)

def assembleAll (ruleIndex : String → Option RuleId) (forSpeed : Bool) :
    List Expr → Assembler (List Node)
  | [] => return []
  | e :: es => do
    let node ← e.assemble ruleIndex forSpeed
    return node :: (← assembleAll ruleIndex forSpeed es)

end

end Expr

namespace Grammar

def assembleRules (grammar : Grammar) (forSpeed : Bool) : Assembler (List CompiledRule) :=
  grammar.rules.mapM fun rule =>
    return ⟨rule.name, ← rule.expr.assemble grammar.ruleIndex? forSpeed⟩

def assembleStartRules (grammar : Grammar) (names : List String) :
    Except GrammarError (List RuleId) := do
  let ids ← names.mapM fun name =>
    match grammar.ruleIndex? name with
    | some id => pure id
    | none => throw ⟨grammar.span, .unknownStartRule name⟩
  if ids.isEmpty then throw ⟨grammar.span, .noStartRule⟩
  return ids

/-- The program of a grammar. The end of the input is the last expectation of its table. -/
def assemble (grammar : Grammar) (options : Options) : Except GrammarError Program := do
  let (rules, table) ← (grammar.assembleRules (options.optimize == .speed)).run []
  let startRules ← grammar.assembleStartRules (options.startRules grammar.firstRule?)
  let (endExpectation, table) ← (intern .endOfInput).run table
  return {
    rules := rules.toArray
    expectations := table.toArray
    endExpectation := endExpectation
    initializer := grammar.initializer.map (·.code)
    startRules := startRules
    cached := options.cache
    traced := options.trace }

end Grammar

end Peg
