import Peg.Json.Reader

/-!
The options of the compiler and their JSON form.
-/

namespace Peg

inductive ModuleFormat where
  | amd
  | bare
  | commonjs
  | es
  | globals
  | umd
deriving DecidableEq

/-- What to prefer where a parser can be made faster or smaller. -/
inductive Optimization where
  | speed
  | size
deriving DecidableEq

inductive OutputKind where
  | parser
  | source
deriving DecidableEq

structure Options where
  /-- The rules from which parsing may start; if empty, the first rule of the grammar. -/
  allowedStartRules : List String := []
  /-- Whether a parse keeps the results of rules. -/
  cache : Bool := false
  dependencies : List (String × String) := []
  exportVar : Option String := none
  format : ModuleFormat := .bare
  optimize : Optimization := .speed
  output : OutputKind := .parser
  /-- Whether a parse reports the rules that it enters and leaves. -/
  trace : Bool := false

namespace ModuleFormat

def name : ModuleFormat → String
  | amd => "amd"
  | bare => "bare"
  | commonjs => "commonjs"
  | es => "es"
  | globals => "globals"
  | umd => "umd"

def all : List ModuleFormat := [amd, bare, commonjs, es, globals, umd]

end ModuleFormat

namespace Optimization

def name : Optimization → String
  | speed => "speed"
  | size => "size"

def all : List Optimization := [speed, size]

end Optimization

namespace OutputKind

def name : OutputKind → String
  | parser => "parser"
  | source => "source"

def all : List OutputKind := [parser, source]

end OutputKind

/-- One of `choices`, given by its name or by an object with the name alone, of value `null`. -/
def Json.asChoice? {α : Type} (name : α → String) (choices : List α) (json : Json) : Option α :=
  match json with
  | .string s => choices.find? (name · == s)
  | .object [(s, .null)] => choices.find? (name · == s)
  | _ => none

def Json.asDictionary? (json : Json) : Option (List (String × String)) :=
  match json with
  | .object members => members.mapM fun (name, value) => value.asString?.map fun s => (name, s)
  | _ => none

def Json.asNullableString? (json : Json) : Option (Option String) :=
  match json with
  | .null => some none
  | json => json.asString?.map some

namespace Options

/-- The names of the options, in the order in which an array gives their values. -/
def fieldNames : List String :=
  ["allowedStartRules", "cache", "dependencies", "exportVar", "format", "optimize", "output",
   "trace"]

/-- The options that the members of an object set. Members that are no options are ignored. -/
def ofObject? (json : Json) : Option Options := do
  let standard : Options := {}
  return {
    allowedStartRules :=
      ← json.fieldOr "allowedStartRules" Json.asStrings? standard.allowedStartRules
    cache := ← json.fieldOr "cache" Json.asBool? standard.cache
    dependencies := ← json.fieldOr "dependencies" Json.asDictionary? standard.dependencies
    exportVar := ← json.fieldOr "exportVar" Json.asNullableString? standard.exportVar
    format := ← json.fieldOr "format" (Json.asChoice? ModuleFormat.name ModuleFormat.all)
      standard.format
    optimize := ← json.fieldOr "optimize" (Json.asChoice? Optimization.name Optimization.all)
      standard.optimize
    output := ← json.fieldOr "output" (Json.asChoice? OutputKind.name OutputKind.all)
      standard.output
    trace := ← json.fieldOr "trace" Json.asBool? standard.trace }

/-- The options that a JSON value sets: an object by the names of its members, an array by position.
-/
def ofJson? (json : Json) : Option Options :=
  match json with
  | .object _ => ofObject? json
  | .array items =>
    if items.length ≤ fieldNames.length then ofObject? (.object (fieldNames.zip items)) else none
  | _ => none

def parse? (text : String) : Option Options := (Json.parse? text).bind ofJson?

def toJson (options : Options) : Json :=
  .object [
    ("allowedStartRules", .array (options.allowedStartRules.map .string)),
    ("cache", .bool options.cache),
    ("dependencies", .object (options.dependencies.map fun (name, value) => (name, .string value))),
    ("exportVar", (options.exportVar.map Json.string).getD .null),
    ("format", .string options.format.name),
    ("optimize", .string options.optimize.name),
    ("output", .string options.output.name),
    ("trace", .bool options.trace)]

/-- The rules from which parsing may start, without repetitions, the default one first. `first` is
the first rule of the grammar. -/
def startRules (options : Options) (first : Option String) : List String :=
  if options.allowedStartRules.isEmpty then first.toList else options.allowedStartRules.eraseDups

end Options

end Peg
