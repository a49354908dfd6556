import Peg.Json.Value
import Peg.Text.Hex

/-!
JSON values as text on one line.
-/

namespace Peg.Json

def escapeChar (c : Char) : String :=
  if c = '"' then "\\\""
  else if c = '\\' then "\\\\"
  else if c.toNat < 0x20 then "\\u" ++ String.ofList (Hex.digits 4 c.toNat)
  else c.toString

def quote (s : String) : String :=
  "\"" ++ String.join (s.toList.map escapeChar) ++ "\""

mutual

/-- The text of a value. An unpaired surrogate has no text and is written as `null`. -/
def render : Json → String
  | null => "null"
  | bool value => if value then "true" else "false"
  | nat value => toString value
  | number lexeme => lexeme
  | string value => quote value
  | unpaired => "null"
  | array items => "[" ++ ",".intercalate (renderItems items) ++ "]"
  | object members => "\x7b" ++ ",".intercalate (renderMembers members) ++ "\x7d"

def renderItems : List Json → List String
  | [] => []
  | item :: items => item.render :: renderItems items

def renderMembers : List (String × Json) → List String
  | [] => []
  | (name, value) :: members => (quote name ++ ":" ++ value.render) :: renderMembers members

end

end Peg.Json
