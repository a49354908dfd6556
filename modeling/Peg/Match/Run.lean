import Peg.Match.Matcher

/-!
Running programs: the matcher of every node, the invocation of rules, and parses of whole inputs.
-/

namespace Peg

variable {σ α ε : Type}

namespace Operator

def run (host : Host σ α ε) (operator : Operator) (m : Matcher σ α ε) : Matcher σ α ε :=
  match operator with
  | labeled label => m.labeled label
  | named expectation => m.named expectation
  | action code => m.action host code
  | text => m.isolate.mapValue fun text _ => .str text
  | optional => m.optional
  | zeroOrMore => m.repeated false
  | oneOrMore => m.repeated true
  | group => m.isolate
  | followedBy => m.lookahead false
  | notFollowedBy => m.lookahead true

end Operator

namespace Node

mutual

def run (host : Host σ α ε) (call : RuleId → Matcher σ α ε) : Node → Matcher σ α ε
  | literal matcher expectation => .literal matcher expectation
  | charClass matcher expectation => .char matcher.accepts expectation
  | any expectation => .char (fun _ => true) expectation
  | ruleRef rule => call rule
  | predicate negated code => .predicate host negated code
  | sequence elements => fun s =>
    match runSequence host call elements s with
    | (.matched values, s') => (.matched (.list values), s')
    | (.failed, s') => (.failed, { s' with cursor := s.cursor, scope := s.scope })
    | (.aborted e, s') => (.aborted e, s')
  | choice alternatives => runChoice host call alternatives
  | wrapped operator body => operator.run host (body.run host call)

def runSequence (host : Host σ α ε) (call : RuleId → Matcher σ α ε) :
    List Node → Step σ α ε (List (Value α))
  | [], s => (.matched [], s)
  | node :: nodes, s =>
    match node.run host call s with
    | (.matched value, s') =>
      match runSequence host call nodes s' with
      | (.matched values, s') => (.matched (value :: values), s')
      | other => other
    | (.failed, s') => (.failed, s')
    | (.aborted e, s') => (.aborted e, s')

def runChoice (host : Host σ α ε) (call : RuleId → Matcher σ α ε) : List Node → Matcher σ α ε
  | [], s => (.failed, s)
  | node :: nodes, s =>
    match Matcher.isolate (node.run host call) s with
    | (.failed, s') => runChoice host call nodes s'
    | other => other

end

end Node

namespace State

def trace (program : Program) (kind : TraceKind) (rule : CompiledRule) (start stop : Cursor)
    (s : State σ α) : State σ α :=
  if program.traced then
    { s with events := ⟨kind, rule.name, start.spanTo stop⟩ :: s.events }
  else s

/-- Leaves a rule that was entered at `start` with the given result, the cursor being behind it. -/
def leave (program : Program) (rule : CompiledRule) (start : Cursor) (result : Option (Value α))
    (s : State σ α) : Outcome ε (Value α) × State σ α :=
  match result with
  | some value => (.matched value, s.trace program .matched rule start s.cursor)
  | none => (.failed, s.trace program .failed rule start start)

/-- The result that the rule had where the cursor is, if the program is cached and there is one. -/
def memoized? (program : Program) (id : RuleId) (s : State σ α) : Option (RuleResult α) :=
  if program.cached then s.memo.find? id s.cursor.offset else none

def remember (program : Program) (id : RuleId) (start : Cursor) (result : Option (Value α))
    (s : State σ α) : State σ α :=
  if program.cached then { s with memo := s.memo.insert id start.offset ⟨result, s.cursor⟩ } else s

end State

namespace Program

/-- Enters a rule: gives its result from the memo, if it has one where the cursor is, and what
`body` gives otherwise. -/
def enter (program : Program) (id : RuleId) (body : CompiledRule → Matcher σ α ε) : Matcher σ α ε :=
  fun s =>
    match program.rules[id]? with
    | none => (.failed, s)
    | some rule =>
      let s := s.trace program .enter rule s.cursor s.cursor
      match s.memoized? program id with
      | some result => { s with cursor := result.stop }.leave program rule s.cursor result.value
      | none => body rule s

/-- Runs the body of a rule and leaves the rule. The labels of the caller are not visible to the
body. -/
def evaluate (program : Program) (host : Host σ α ε) (call : RuleId → Matcher σ α ε) (id : RuleId)
    (rule : CompiledRule) : Matcher σ α ε := fun s =>
  let (outcome, s') := rule.node.run host call { s with scope := [] }
  let s' := { s' with scope := s.scope }
  match outcome with
  | .matched value =>
    (s'.remember program id s.cursor (some value)).leave program rule s.cursor (some value)
  | .failed => (s'.remember program id s.cursor none).leave program rule s.cursor none
  | .aborted e => (.aborted e, s')

/-- Invokes a rule. At most `depth` rules may be open at once in it, itself included, and `limit` in
the whole parse. -/
def invoke (program : Program) (host : Host σ α ε) (limit : Nat) : Nat → RuleId → Matcher σ α ε
  | 0, id => program.enter id fun _ s => (.aborted (.nestingLimit limit s.cursor.offset), s)
  | depth + 1, id =>
    program.enter id (program.evaluate host (program.invoke host limit depth) id)

end Program

structure ParseOptions where
  /-- The rule to start from, if not the default one. -/
  startRule : Option String := none
  /-- How many rules may be open at once. -/
  maxDepth : Nat := 512
  /-- Whether the input may go on behind the match. -/
  allowRest : Bool := false

/-- What comes of a parse: the value with the offset behind the match, or an error; and what
happened on the way, in order. -/
structure ParseResult (σ α : Type) (ε : Type := String) where
  outcome : Except (ParseError ε) (Value α × Nat)
  events : List TraceEvent
  calls : List (Call α)
  host : σ

namespace Program

/-- The rule from which to start, or the name that is none of an allowed start rule. -/
def findStart (program : Program) (startRule : Option String) : Except String RuleId :=
  match startRule with
  | some name =>
    match program.startRule? name with
    | some id => .ok id
    | none => .error name
  | none =>
    match program.startRules with
    | id :: _ => .ok id
    | [] => .error ""

def runInitializer (program : Program) (host : Host σ α ε) : Step σ α ε Unit := fun s =>
  match program.initializer with
  | some code => Matcher.callHost .initializer code s.cursor none host.prepare s
  | none => (.matched (), s)

def runFrom (program : Program) (host : Host σ α ε) (maxDepth : Nat) (start : RuleId) :
    Matcher σ α ε :=
  fun s =>
    match program.runInitializer host s with
    | (.matched (), s') => program.invoke host maxDepth maxDepth start s'
    | (.failed, s') => (.failed, s')
    | (.aborted e, s') => (.aborted e, s')

def answer (program : Program) (allowRest : Bool) (outcome : Outcome ε (Value α)) (s : State σ α) :
    Except (ParseError ε) (Value α × Nat) :=
  match outcome with
  | .matched value =>
    if allowRest || s.cursor.atEnd then .ok (value, s.cursor.offset)
    else .error (.refused ((s.recordFailure program.endExpectation).mismatch program))
  | .failed => .error (.refused (s.mismatch program))
  | .aborted e => .error e

/-- Parses an input, `memory` being what the host remembers. -/
def parse (program : Program) (host : Host σ α ε) (memory : σ) (input : String)
    (options : ParseOptions) : ParseResult σ α ε :=
  match program.findStart options.startRule with
  | .error name => ⟨.error (.invalidStartRule name), [], [], memory⟩
  | .ok start =>
    let (outcome, s) := program.runFrom host options.maxDepth start (.initial input memory)
    ⟨program.answer options.allowRest outcome s, s.events.reverse, s.calls.reverse, s.host⟩

end Program

end Peg
