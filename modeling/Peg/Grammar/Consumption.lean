import Peg.Grammar.Expr

/-!
Which expressions always consume input when they match. The answer follows references into rules,
each rule once along a path: a rule that is reached again before anything was consumed is
left-recursive and counts as one that may consume nothing.
-/

namespace Peg

namespace Expr

mutual

/-- Whether the expression consumes input whenever it matches, if `rule` says it for references. -/
def consumes (rule : String → Bool) : Expr → Bool
  | literal _ lit => !lit.text.isEmpty
  | charClass .. | any _ => true
  | ruleRef _ name => rule name
  | predicate .. => false
  | sequence _ elements => anyConsumes rule elements
  | choice _ alternatives => allConsume rule alternatives
  | wrapped _ wrapper body =>
    match wrapper with
    | .labeled _ | .named _ | .action _ | .text | .oneOrMore | .group => body.consumes rule
    | .optional | .zeroOrMore | .followedBy | .notFollowedBy => false

def anyConsumes (rule : String → Bool) : List Expr → Bool
  | [] => false
  | e :: es => e.consumes rule || anyConsumes rule es

def allConsume (rule : String → Bool) : List Expr → Bool
  | [] => true
  | e :: es => e.consumes rule && allConsume rule es

end

end Expr

namespace Grammar

/-- Whether the first rule called `name` consumes input whenever it matches, with the rules in
`visiting` counted as rules that may not. A path through `depth` different rules is followed. -/
def ruleConsumes (grammar : Grammar) : Nat → List String → String → Bool
  | 0, _, _ => false
  | depth + 1, visiting, name =>
    if name ∈ visiting then false
    else
      match grammar.rule? name with
      | none => false
      | some rule => rule.expr.consumes (ruleConsumes grammar depth (name :: visiting))

/-- Whether the expression consumes input whenever it matches. No path is longer than the number of
rules. -/
def alwaysConsumes (grammar : Grammar) (e : Expr) : Bool :=
  e.consumes (grammar.ruleConsumes grammar.rules.length [])

end Grammar

end Peg
