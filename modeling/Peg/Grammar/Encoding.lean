import Peg.Grammar.Expr
import Peg.Json.Value

/-!
The JSON form of grammar trees. An expression is one flat object: the name of its kind under `type`,
the fields of that kind, and its span under `location`. Reading takes a missing span for the start
of the text and missing flags for `false`, takes a number under `type` for the kind with that place
in the list of kinds, ignores members it does not know, and refuses all else.
-/

namespace Peg

namespace Position

def toJson (p : Position) : Json :=
  .object [("offset", .nat p.offset), ("line", .nat p.line), ("column", .nat p.column)]

def ofJson? (json : Json) : Option Position := do
  let offset ← json.required "offset" Json.asWord?
  let line ← json.required "line" Json.asWord?
  let column ← json.required "column" Json.asWord?
  return ⟨offset, line, column⟩

end Position

namespace Span

def toJson (s : Span) : Json :=
  .object [("start", s.start.toJson), ("end", s.stop.toJson)]

def ofJson? (json : Json) : Option Span := do
  let start ← json.required "start" Position.ofJson?
  let stop ← json.required "end" Position.ofJson?
  return ⟨start, stop⟩

def field? (json : Json) : Option Span :=
  json.fieldOr "location" ofJson? .none

end Span

namespace ClassPart

def toJson : ClassPart → Json
  | single c => .string c.toString
  | range first last => .array [.string first.toString, .string last.toString]

def charOfJson? (json : Json) : Option Char :=
  match json.asString?.map String.toList with
  | some [c] => some c
  | _ => none

def ofJson? (json : Json) : Option ClassPart :=
  match json with
  | .array [first, last] => do return range (← charOfJson? first) (← charOfJson? last)
  | json => (charOfJson? json).map single

end ClassPart

namespace CharClass

/-- The members that describe a class, without those that say what they belong to. -/
def members (cls : CharClass) : List (String × Json) :=
  [("parts", .array (cls.parts.map ClassPart.toJson)), ("inverted", .bool cls.inverted),
   ("ignoreCase", .bool cls.ignoreCase)]

end CharClass

namespace Wrapper

def kindName : Wrapper → String
  | labeled _ => "labeled"
  | named _ => "named"
  | action _ => "action"
  | text => "text"
  | optional => "optional"
  | zeroOrMore => "zero_or_more"
  | oneOrMore => "one_or_more"
  | group => "group"
  | followedBy => "simple_and"
  | notFollowedBy => "simple_not"

def members : Wrapper → List (String × Json)
  | labeled label => [("label", .string label)]
  | named name => [("name", .string name)]
  | action code => [("code", .string code)]
  | _ => []

def ofJson? (kind : String) (json : Json) : Option Wrapper :=
  match kind with
  | "labeled" => (json.required "label" Json.asString?).map labeled
  | "named" => (json.required "name" Json.asString?).map named
  | "action" => (json.required "code" Json.asString?).map action
  | "text" => some text
  | "optional" => some optional
  | "zero_or_more" => some zeroOrMore
  | "one_or_more" => some oneOrMore
  | "group" => some group
  | "simple_and" => some followedBy
  | "simple_not" => some notFollowedBy
  | _ => none

end Wrapper

namespace Expr

def kindName : Expr → String
  | literal .. => "literal"
  | charClass .. => "class"
  | any _ => "any"
  | ruleRef .. => "rule_ref"
  | predicate _ negated _ => if negated then "semantic_not" else "semantic_and"
  | sequence .. => "sequence"
  | choice .. => "choice"
  | wrapped _ wrapper _ => wrapper.kindName

def node (kind : String) (span : Span) (members : List (String × Json)) : Json :=
  .object (("type", .string kind) :: (members ++ [("location", span.toJson)]))

mutual

def members : Expr → List (String × Json)
  | literal _ lit => [("value", .string lit.text), ("ignoreCase", .bool lit.ignoreCase)]
  | charClass _ cls => cls.members
  | any _ => []
  | ruleRef _ name => [("name", .string name)]
  | predicate _ _ code => [("code", .string code)]
  | sequence _ elements => [("elements", .array (allToJson elements))]
  | choice _ alternatives => [("alternatives", .array (allToJson alternatives))]
  | wrapped _ wrapper body =>
    ("expression", node body.kindName body.span body.members) :: wrapper.members

def allToJson : List Expr → List Json
  | [] => []
  | e :: es => node e.kindName e.span e.members :: allToJson es

end

def toJson (e : Expr) : Json := node e.kindName e.span e.members

/-- The names of all kinds of expressions. The place of a name in this list is the number of the
kind. -/
def kindNames : List String :=
  ["literal", "class", "any", "rule_ref", "sequence", "choice", "labeled", "named", "action",
   "text", "optional", "zero_or_more", "one_or_more", "group", "simple_and", "simple_not",
   "semantic_and", "semantic_not"]

/-- The name of the kind that a value tells, which is the name itself or the number of the kind. -/
def kindOfJson? : Json → Option String
  | .string name => some name
  | .nat number => kindNames[number]?
  | _ => none

def leafOfJson? (kind : String) (span : Span) (json : Json) : Option Expr :=
  match kind with
  | "literal" => do
    let text ← json.required "value" Json.asString?
    let ignoreCase ← json.fieldOr "ignoreCase" Json.asBool? false
    return literal span ⟨text, ignoreCase⟩
  | "class" => do
    let parts ← json.required "parts" fun parts => parts.asArray?.bind (·.mapM ClassPart.ofJson?)
    let inverted ← json.fieldOr "inverted" Json.asBool? false
    let ignoreCase ← json.fieldOr "ignoreCase" Json.asBool? false
    return charClass span ⟨parts, inverted, ignoreCase⟩
  | "any" => some (any span)
  | "rule_ref" => (json.required "name" Json.asString?).map (ruleRef span)
  | "semantic_and" => (json.required "code" Json.asString?).map (predicate span false)
  | "semantic_not" => (json.required "code" Json.asString?).map (predicate span true)
  | _ => none

mutual

def ofJson? : Json → Option Expr
  | .object fields => do
    let json := Json.object fields
    let kind ← json.required "type" kindOfJson?
    let span ← Span.field? json
    match kind with
    | "sequence" => (partsOfMembers? "elements" fields).map (sequence span)
    | "choice" => (partsOfMembers? "alternatives" fields).map (choice span)
    | kind =>
      match leafOfJson? kind span json with
      | some leaf => some leaf
      | none => do
        let wrapper ← Wrapper.ofJson? kind json
        let body ← bodyOfMembers? fields
        return wrapped span wrapper body
  | _ => none

def bodyOfMembers? : List (String × Json) → Option Expr
  | [] => none
  | (name, value) :: fields => if name = "expression" then ofJson? value else bodyOfMembers? fields

def partsOfMembers? (key : String) : List (String × Json) → Option (List Expr)
  | [] => none
  | (name, value) :: fields => if name = key then partsOfJson? value else partsOfMembers? key fields

def partsOfJson? : Json → Option (List Expr)
  | .array items => allOfJson? items
  | _ => none

def allOfJson? : List Json → Option (List Expr)
  | [] => some []
  | item :: items => do return (← ofJson? item) :: (← allOfJson? items)

end

end Expr

namespace Initializer

def toJson (i : Initializer) : Json :=
  .object [("code", .string i.code), ("location", i.span.toJson)]

def ofJson? (json : Json) : Option Initializer := do
  let code ← json.required "code" Json.asString?
  return ⟨code, ← Span.field? json⟩

end Initializer

namespace Rule

def toJson (rule : Rule) : Json :=
  .object [("name", .string rule.name), ("expression", rule.expr.toJson),
    ("location", rule.span.toJson)]

def ofJson? (json : Json) : Option Rule := do
  let name ← json.required "name" Json.asString?
  let expr ← json.required "expression" Expr.ofJson?
  return ⟨name, expr, ← Span.field? json⟩

end Rule

namespace Grammar

def toJson (grammar : Grammar) : Json :=
  let initializer := match grammar.initializer with
    | some i => [("initializer", i.toJson)]
    | none => []
  .object (initializer ++
    [("rules", .array (grammar.rules.map Rule.toJson)), ("location", grammar.span.toJson)])

/-- The tree that a JSON value describes. An initializer that is `null` is none. -/
def ofJson? (json : Json) : Option Grammar := do
  let initializer ← json.fieldOr "initializer" (fun
    | .null => some none
    | value => (Initializer.ofJson? value).map some) none
  let rules ← json.required "rules" fun rules => rules.asArray?.bind (·.mapM Rule.ofJson?)
  return ⟨initializer, rules, ← Span.field? json⟩

end Grammar

end Peg
