import Peg.Match.Host

/-!
A host for grammars whose code blocks are single commands. A block is a command and its argument,
split at the first space. The host remembers a count.
-/

namespace Peg.Script

def splitSpace (text : String) : String × String :=
  let cs := text.toList
  (String.ofList (cs.takeWhile (· ≠ ' ')), String.ofList ((cs.dropWhile (· ≠ ' ')).drop 1))

def errorOf? (command argument : String) : Option (CodeError String) :=
  match command with
  | "fail" => some (.host argument)
  | "error" => some (.message argument)
  | "expected" => some (.expected argument)
  | _ => none

/-- All labels in scope with the texts of their values, such as `a=x,b=y`. -/
def listLabels (labels : List (String × Value String)) : String :=
  ",".intercalate (labels.map fun (label, value) => label ++ "=" ++ value.concat)

def makeValue (command argument : String) (context : CodeContext String) (count : Nat) :
    Value String × Nat :=
  match command with
  | "value" => (context.value.getD .null, count)
  | "label" => ((context.label? argument).getD .null, count)
  | "list" => (.list (context.labels.map (·.2)), count)
  | "str" => (.str argument, count)
  | "null" => (.null, count)
  | "concat" => (.str ((context.value.map Value.concat).getD ""), count)
  | "count" => (.host (toString (count + 1)), count + 1)
  | "labels" => (.host (listLabels context.labels), count)
  | _ => (.host context.text, count)

/-- Whether a label is bound to a value with the given text; label and text are split at the first
space. -/
def labelIs (argument : String) (context : CodeContext String) : Bool :=
  let (label, text) := splitSpace argument
  (context.label? label).any fun value => value.concat == text

/-- What a command answers as a predicate, and the count behind it. A block that is no command asks
whether a label of its name is bound. -/
def decideOn (code command argument : String) (context : CodeContext String) (count : Nat) :
    Bool × Nat :=
  match command with
  | "true" => (true, count)
  | "false" => (false, count)
  | "first" => (count + 1 == 1, count + 1)
  | "at" => (toString context.offset == argument, count)
  | "next" => (argument.toList.isPrefixOf context.start.rest, count)
  | "is" => (labelIs argument context, count)
  | _ => ((context.label? code).isSome, count)

def run {β : Type} (code : String) (count : Nat) (proceed : String → String → β × Nat) :
    Except (CodeError String) β × Nat :=
  let (command, argument) := splitSpace code
  match errorOf? command argument with
  | some e => (.error e, count)
  | none =>
    let (result, count) := proceed command argument
    (.ok result, count)

end Script

def Host.script : Host Nat String where
  prepare code _ count := Script.run code count fun _ _ => ((), count)
  action code context count :=
    Script.run code count fun command argument =>
      Script.makeValue command argument context count
  predicate code context count :=
    Script.run code count fun command argument =>
      Script.decideOn code command argument context count

end Peg
