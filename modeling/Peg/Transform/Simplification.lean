import Peg.Grammar.Expr

/-!
Removal of wrappers that change neither what is matched nor what it gives: groups around expressions
that bind no labels, display names right inside display names, and, if asked for, choices that are
alternatives of a choice.
-/

namespace Peg

namespace Expr

def leaksLabels : Expr → Bool
  | wrapped _ (.labeled _) _ | sequence .. => true
  | _ => false

/-- The alternatives that an alternative of a choice stands for. -/
def flattenChoice : Expr → List Expr
  | choice _ alternatives => alternatives
  | e => [e]

def simplifyRoot (flattenChoices : Bool) : Expr → Expr
  | wrapped span .group body => if body.leaksLabels then .wrapped span .group body else body
  | wrapped span (.named name) body =>
    .wrapped span (.named name) ((body.asNamed?.map (·.2)).getD body)
  | choice span alternatives =>
    .choice span (if flattenChoices then alternatives.flatMap flattenChoice else alternatives)
  | e => e

end Expr

namespace Grammar

def simplify (flattenChoices : Bool) (grammar : Grammar) : Grammar :=
  grammar.rebuild (Expr.simplifyRoot flattenChoices)

end Grammar

end Peg
