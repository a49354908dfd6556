import Peg.Program.ClassMatcher
import Peg.Program.Expectation
import Peg.Program.LiteralMatcher

/-!
Programs: grammars with references resolved to indices and terminals prepared for matching.
-/

namespace Peg

abbrev RuleId := Nat

abbrev ExpectationId := Nat

inductive Operator where
  | labeled (label : String)
  /-- Reports failures as the expectation alone. -/
  | named (expectation : ExpectationId)
  | action (code : String)
  | text
  | optional
  | zeroOrMore
  | oneOrMore
  | group
  | followedBy
  | notFollowedBy

inductive Node where
  | literal (matcher : LiteralMatcher) (expectation : ExpectationId)
  | charClass (matcher : ClassMatcher) (expectation : ExpectationId)
  | any (expectation : ExpectationId)
  | ruleRef (rule : RuleId)
  | predicate (negated : Bool) (code : String)
  | sequence (elements : List Node)
  | choice (alternatives : List Node)
  | wrapped (operator : Operator) (body : Node)

/-- Induction over nodes, with the statement at hand for all members of a sequence or a choice. -/
@[elab_as_elim]
theorem Node.induct {P : Node → Prop}
    (literal : ∀ matcher expectation, P (.literal matcher expectation))
    (charClass : ∀ matcher expectation, P (.charClass matcher expectation))
    (any : ∀ expectation, P (.any expectation))
    (ruleRef : ∀ rule, P (.ruleRef rule))
    (predicate : ∀ negated code, P (.predicate negated code))
    (sequence : ∀ elements, (∀ node ∈ elements, P node) → P (.sequence elements))
    (choice : ∀ alternatives, (∀ node ∈ alternatives, P node) → P (.choice alternatives))
    (wrapped : ∀ operator body, P body → P (.wrapped operator body)) (node : Node) : P node :=
  @Node.rec P (fun nodes => ∀ node ∈ nodes, P node) literal charClass any ruleRef predicate
    sequence choice wrapped (fun _ h => nomatch h)
    (fun _ _ hhead htail => List.forall_mem_cons.mpr ⟨hhead, htail⟩) node

structure CompiledRule where
  name : String
  node : Node

structure Program where
  rules : Array CompiledRule
  /-- Everything that a failure may report, without repetitions. -/
  expectations : Array Expectation
  endExpectation : ExpectationId
  /-- Code that is run before every parse. -/
  initializer : Option String
  /-- The rules from which parsing may start, the default one first. -/
  startRules : List RuleId
  /-- Whether a parse keeps the results of rules. -/
  cached : Bool
  /-- Whether a parse reports the rules that it enters and leaves. -/
  traced : Bool

namespace Program

def ruleName? (program : Program) (id : RuleId) : Option String :=
  program.rules[id]?.map (·.name)

def ruleNames (program : Program) : List String :=
  program.rules.toList.map (·.name)

def startRuleNames (program : Program) : List String :=
  program.startRules.filterMap program.ruleName?

def startRule? (program : Program) (name : String) : Option RuleId :=
  program.startRules.find? fun id => program.ruleName? id == some name

end Program

end Peg
