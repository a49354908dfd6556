import Peg.Grammar.Terminal
import Peg.Text.Position

/-!
Grammars as trees. An expression is a terminal, a reference, a predicate in code, a sequence, a
choice, or another expression within a wrapper.
-/

namespace Peg

inductive Wrapper where
  /-- Binds the value to a label. -/
  | labeled (label : String)
  /-- Reports failures under a display name. -/
  | named (name : String)
  /-- Hands the match to a code block, which makes the value. -/
  | action (code : String)
  /-- Takes the matched text as the value. -/
  | text
  | optional
  | zeroOrMore
  | oneOrMore
  /-- Keeps labels inside. -/
  | group
  /-- Matches, consuming nothing, where the expression does. -/
  | followedBy
  /-- Matches, consuming nothing, where the expression does not. -/
  | notFollowedBy
deriving DecidableEq

/-- A parsing expression. Every node has the span of its text. -/
inductive Expr where
  | literal (span : Span) (literal : Literal)
  | charClass (span : Span) (members : CharClass)
  /-- Any one character. -/
  | any (span : Span)
  | ruleRef (span : Span) (name : String)
  /-- A predicate decided by code, `negated` or not. -/
  | predicate (span : Span) (negated : Bool) (code : String)
  | sequence (span : Span) (elements : List Expr)
  /-- The first alternative that matches. -/
  | choice (span : Span) (alternatives : List Expr)
  | wrapped (span : Span) (wrapper : Wrapper) (body : Expr)

/-- Induction over expressions, with the statement at hand for all members of a sequence or a
choice. -/
@[elab_as_elim]
theorem Expr.induct {P : Expr → Prop}
    (literal : ∀ span lit, P (.literal span lit))
    (charClass : ∀ span members, P (.charClass span members))
    (any : ∀ span, P (.any span))
    (ruleRef : ∀ span name, P (.ruleRef span name))
    (predicate : ∀ span negated code, P (.predicate span negated code))
    (sequence : ∀ span elements, (∀ e ∈ elements, P e) → P (.sequence span elements))
    (choice : ∀ span alternatives, (∀ e ∈ alternatives, P e) → P (.choice span alternatives))
    (wrapped : ∀ span wrapper body, P body → P (.wrapped span wrapper body)) (e : Expr) : P e :=
  @Expr.rec P (fun es => ∀ e ∈ es, P e) literal charClass any ruleRef predicate
    sequence choice wrapped (fun _ h => nomatch h)
    (fun _ _ hhead htail => List.forall_mem_cons.mpr ⟨hhead, htail⟩) e

structure Initializer where
  code : String
  span : Span

structure Rule where
  name : String
  expr : Expr
  span : Span

structure Grammar where
  initializer : Option Initializer
  rules : List Rule
  span : Span

namespace Expr

def span : Expr → Span
  | literal span _ | charClass span _ | any span | ruleRef span _ | predicate span _ _
  | sequence span _ | choice span _ | wrapped span _ _ => span

/-- The display name that an expression stands under, and the expression itself. -/
def asNamed? : Expr → Option (String × Expr)
  | wrapped _ (.named name) body => some (name, body)
  | _ => none

def asRef? : Expr → Option String
  | ruleRef _ name => some name
  | _ => none

def asRepetition? : Expr → Option Expr
  | wrapped _ .zeroOrMore body | wrapped _ .oneOrMore body => some body
  | _ => none

mutual

/-- The expression and all expressions inside it, outer ones first and from left to right. -/
def subterms : Expr → List Expr
  | sequence span elements => .sequence span elements :: subtermsOfAll elements
  | choice span alternatives => .choice span alternatives :: subtermsOfAll alternatives
  | wrapped span wrapper body => .wrapped span wrapper body :: body.subterms
  | e => [e]

def subtermsOfAll : List Expr → List Expr
  | [] => []
  | e :: es => e.subterms ++ subtermsOfAll es

end

mutual

/-- Rebuilds the expression from its leaves up: `f` is applied to every node whose parts are
rebuilt. -/
def rebuild (f : Expr → Expr) : Expr → Expr
  | sequence span elements => f (.sequence span (rebuildAll f elements))
  | choice span alternatives => f (.choice span (rebuildAll f alternatives))
  | wrapped span wrapper body => f (.wrapped span wrapper (body.rebuild f))
  | e => f e

def rebuildAll (f : Expr → Expr) : List Expr → List Expr
  | [] => []
  | e :: es => e.rebuild f :: rebuildAll f es

end

end Expr

namespace Rule

/-- The display name of a rule, which stands around its whole expression. -/
def displayName (rule : Rule) : Option String :=
  rule.expr.asNamed?.map (·.1)

def body (rule : Rule) : Expr :=
  (rule.expr.asNamed?.map (·.2)).getD rule.expr

end Rule

namespace Grammar

def rule? (grammar : Grammar) (name : String) : Option Rule :=
  grammar.rules.find? (·.name == name)

/-- The index of the first rule called `name`. -/
def ruleIndex? (grammar : Grammar) (name : String) : Option Nat :=
  grammar.rules.findIdx? (·.name == name)

def firstRule? (grammar : Grammar) : Option String :=
  grammar.rules.head?.map (·.name)

def subterms (grammar : Grammar) : List Expr :=
  grammar.rules.flatMap fun rule => rule.expr.subterms

def rebuild (f : Expr → Expr) (grammar : Grammar) : Grammar :=
  { grammar with rules := grammar.rules.map fun rule => { rule with expr := rule.expr.rebuild f } }

end Grammar

end Peg
