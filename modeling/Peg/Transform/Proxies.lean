import Peg.Grammar.Expr

/-!
Removal of proxies, the rules that are nothing but a reference to another rule. References to a
proxy are redirected to its target; a proxy goes unless parsing may start from it.
-/

namespace Peg

namespace Expr

def redirectRef (old new : String) : Expr → Expr
  | ruleRef span name => .ruleRef span (if name = old then new else name)
  | e => e

end Expr

namespace Rule

/-- The rule that a proxy stands for. A rule that refers to itself is none. -/
def proxyTarget? (rule : Rule) : Option String :=
  rule.expr.asRef?.filter (· ≠ rule.name)

end Rule

namespace Grammar

def redirect (old new : String) (grammar : Grammar) : Grammar :=
  grammar.rebuild (Expr.redirectRef old new)

def resolveProxy (grammar : Grammar) (index : Nat) : Grammar :=
  match grammar.rules[index]? with
  | none => grammar
  | some rule =>
    match rule.proxyTarget? with
    | none => grammar
    | some target => grammar.redirect rule.name target

def isRemovable (startRules : List String) (grammar : Grammar) (index : Nat) : Bool :=
  grammar.rules[index]?.any fun rule =>
    rule.proxyTarget?.isSome && !startRules.contains rule.name

/-- Resolves the proxies at the indices, one after the other. Gives the grammar and those of the
indices that can go, in order. Whether a rule is a proxy is seen on what the earlier steps left. -/
def resolveProxies (startRules : List String) : Grammar → List Nat → Grammar × List Nat
  | grammar, [] => (grammar, [])
  | grammar, index :: indices =>
    let (resolved, removable) := resolveProxies startRules (grammar.resolveProxy index) indices
    -- The answer is taken before the references to this rule are redirected.
    (resolved,
      if grammar.isRemovable startRules index then index :: removable else removable)

/-- The grammar without its proxies, and the names of the rules removed, in order. -/
def removeProxies (startRules : List String) (grammar : Grammar) : Grammar × List String :=
  let (resolved, removable) :=
    grammar.resolveProxies startRules (List.range grammar.rules.length)
  let (gone, kept) := resolved.rules.zipIdx.partition fun (_, index) => removable.contains index
  ({ resolved with rules := kept.map (·.1) }, gone.map fun (rule, _) => rule.name)

end Grammar

end Peg
