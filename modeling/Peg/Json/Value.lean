/-!
JSON values. Natural numbers are told apart from all other numbers, because they are the only ones
that a grammar tree holds.
-/

namespace Peg

inductive Json where
  | null
  | bool (value : Bool)
  /-- A number written with digits alone. -/
  | nat (value : Nat)
  /-- Any other number, as it is written. -/
  | number (lexeme : String)
  | string (value : String)
  /-- A string with an unpaired surrogate, which is well formed but denotes no text, or an object
  that has such a string as a name. -/
  | unpaired
  | array (items : List Json)
  | object (members : List (String × Json))

namespace Json

def field? (name : String) : Json → Option Json
  | object members => members.lookup name
  | _ => none

def asBool? : Json → Option Bool
  | bool value => some value
  | _ => none

def asString? : Json → Option String
  | string value => some value
  | _ => none

def asArray? : Json → Option (List Json)
  | array items => some items
  | _ => none

/-- The natural numbers that fit a machine word of 64 bits. -/
def asWord? : Json → Option Nat
  | nat value => if value < 0x10000000000000000 then some value else none
  | _ => none

def asStrings? (json : Json) : Option (List String) :=
  json.asArray?.bind fun items => items.mapM asString?

/-- Reads the member called `name` if there is one, and takes `default` otherwise. -/
def fieldOr {α : Type} (name : String) (read : Json → Option α) (default : α) (json : Json) :
    Option α :=
  match json.field? name with
  | some value => read value
  | none => some default

def required {α : Type} (name : String) (read : Json → Option α) (json : Json) : Option α :=
  (json.field? name).bind read

end Json

end Peg
