import Peg.Grammar.Error
import Peg.Grammar.Expr

/-!
No label is bound where one of the same name is visible. The labels of a sequence are visible to its
later elements and to all that these contain.
-/

namespace Peg

/-- The visible labels with the spans of their bindings, outermost first. -/
abbrev LabelEnv := List (String × Span)

namespace Expr

mutual

/-- Checks an expression where the labels of `env` are visible. Gives the labels that are visible
behind it within a sequence: only a labeled expression adds one. -/
def checkLabels (env : LabelEnv) : Expr → Except GrammarError LabelEnv
  | wrapped span (.labeled label) body =>
    match env.lookup label with
    | some first => .error ⟨span, .duplicateLabel label first.start⟩
    | none => do
      let _ ← body.checkLabels env
      return env ++ [(label, span)]
  | wrapped _ _ body => do
    let _ ← body.checkLabels env
    return env
  | sequence _ elements => do
    checkElements env elements
    return env
  | choice _ alternatives => do
    checkAlternatives env alternatives
    return env
  | _ => .ok env

/-- Checks the elements of a sequence, each with the labels of those before it. -/
def checkElements (env : LabelEnv) : List Expr → Except GrammarError Unit
  | [] => .ok ()
  | e :: es => do
    let env ← e.checkLabels env
    checkElements env es

def checkAlternatives (env : LabelEnv) : List Expr → Except GrammarError Unit
  | [] => .ok ()
  | e :: es => do
    let _ ← e.checkLabels env
    checkAlternatives env es

end

end Expr

namespace Grammar

def firstFailure {α : Type} (check : Rule → Except GrammarError α) (rules : List Rule) :
    Option GrammarError :=
  rules.findSome? fun rule =>
    match check rule with
    | .ok _ => none
    | .error e => some e

def duplicateLabel? (grammar : Grammar) : Option GrammarError :=
  firstFailure (fun rule => rule.expr.checkLabels []) grammar.rules

end Grammar

end Peg
