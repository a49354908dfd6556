import Peg.Json.Value
import Peg.Text.Hex

/-!
Reading JSON text, strictly: one value with blanks around it, no control characters in strings, no
superfluous zeros or commas. Readers take the characters from where they start and give what they
read with the characters behind it.
-/

namespace Peg.Json

def isBlank (c : Char) : Bool := c = ' ' || c = '\t' || c = '\n' || c = '\r'

def dropBlanks (cs : List Char) : List Char := cs.dropWhile isBlank

/-- What a string holds at one place: a character, or a code unit written as an escape. -/
inductive Unit16 where
  | char (c : Char)
  | escaped (code : Nat)

def shortEscape? (c : Char) : Option Char :=
  match c with
  | '"' => some '"'
  | '\\' => some '\\'
  | '/' => some '/'
  | 'b' => some '\x08'
  | 'f' => some '\x0c'
  | 'n' => some '\n'
  | 'r' => some '\r'
  | 't' => some '\t'
  | _ => none

def readUnits : List Char → Option (List Unit16 × List Char)
  | [] => none
  | '"' :: cs => some ([], cs)
  | '\\' :: 'u' :: a :: b :: c :: d :: cs => do
    let code ← Hex.value? [a, b, c, d]
    let (units, rest) ← readUnits cs
    return (.escaped code :: units, rest)
  | '\\' :: e :: cs => do
    let c ← shortEscape? e
    let (units, rest) ← readUnits cs
    return (.char c :: units, rest)
  | c :: cs => do
    if c.toNat < 0x20 then none
    let (units, rest) ← readUnits cs
    return (.char c :: units, rest)

def isHighSurrogate (code : Nat) : Bool := 0xD800 ≤ code && code < 0xDC00

def isLowSurrogate (code : Nat) : Bool := 0xDC00 ≤ code && code < 0xE000

/-- The characters that code units stand for: a high surrogate and the low one behind it are one
character, and no other surrogate is any. -/
def decodeUnits : List Unit16 → Option (List Char)
  | [] => some []
  | .char c :: units => (decodeUnits units).map (c :: ·)
  | .escaped high :: .escaped low :: units =>
    if isHighSurrogate high then
      if isLowSurrogate low then
        let code := 0x10000 + (high - 0xD800) * 0x400 + (low - 0xDC00)
        (decodeUnits units).map (Char.ofNat code :: ·)
      else none
    else if isLowSurrogate high then none
    -- The first unit is a character by itself, so the second one may begin a pair.
    else (decodeUnits (.escaped low :: units)).map (Char.ofNat high :: ·)
  | .escaped code :: units =>
    if isHighSurrogate code || isLowSurrogate code then none
    else (decodeUnits units).map (Char.ofNat code :: ·)

def readDigits (cs : List Char) : Option (List Char × List Char) :=
  let digits := cs.takeWhile Char.isDigit
  if digits.isEmpty then none else some (digits, cs.dropWhile Char.isDigit)

def readFraction : List Char → Option (List Char × List Char)
  | '.' :: cs => (readDigits cs).map fun (digits, rest) => ('.' :: digits, rest)
  | cs => some ([], cs)

def readExponent : List Char → Option (List Char × List Char)
  | [] => some ([], [])
  | e :: cs =>
    if e = 'e' || e = 'E' then
      match cs with
      | [] => none
      | s :: rest =>
        if s = '+' || s = '-' then
          (readDigits rest).map fun (digits, rest) => (e :: s :: digits, rest)
        else (readDigits cs).map fun (digits, rest) => (e :: digits, rest)
    else some ([], e :: cs)

def decimalValue (digits : List Char) : Nat :=
  digits.foldl (fun n c => 10 * n + (c.toNat - '0'.toNat)) 0

def readNumber (cs : List Char) : Option (Json × List Char) := do
  let (sign, cs) := match cs with
    | '-' :: cs => (['-'], cs)
    | cs => ([], cs)
  let (whole, cs) ← readDigits cs
  if whole.head? = some '0' && whole.length ≠ 1 then none
  let (fraction, cs) ← readFraction cs
  let (exponent, cs) ← readExponent cs
  if sign.isEmpty && fraction.isEmpty && exponent.isEmpty then
    return (.nat (decimalValue whole), cs)
  else return (.number (String.ofList (sign ++ whole ++ fraction ++ exponent)), cs)

/-- Reads a name or a string behind its opening quote. No text is given where a surrogate is
unpaired. -/
def readString (cs : List Char) : Option (Option String × List Char) := do
  let (units, rest) ← readUnits cs
  return ((decodeUnits units).map String.ofList, rest)

/-- An object of members whose names may lack a text. -/
def ofMembers (members : List (Option String × Json)) : Json :=
  match members.mapM fun (name, value) => name.map fun name => (name, value) with
  | some members => .object members
  | none => .unpaired

mutual

/-- Reads a value with the blanks before it. Every nesting takes two steps of `fuel`, and every
further item one, so twice the number of characters is enough. -/
def readValue : Nat → List Char → Option (Json × List Char)
  | 0, _ => none
  | fuel + 1, cs =>
    match dropBlanks cs with
    | 'n' :: 'u' :: 'l' :: 'l' :: rest => some (.null, rest)
    | 't' :: 'r' :: 'u' :: 'e' :: rest => some (.bool true, rest)
    | 'f' :: 'a' :: 'l' :: 's' :: 'e' :: rest => some (.bool false, rest)
    | '"' :: rest => (readString rest).map fun (text, rest) =>
      ((match text with | some text => .string text | none => .unpaired), rest)
    | '[' :: rest =>
      match dropBlanks rest with
      | ']' :: rest => some (.array [], rest)
      | rest => (readItems fuel rest).map fun (items, rest) => (.array items, rest)
    | '\x7b' :: rest =>
      match dropBlanks rest with
      | '\x7d' :: rest => some (.object [], rest)
      | rest => (readMembers fuel rest).map fun (members, rest) => (ofMembers members, rest)
    | rest => readNumber rest

def readItems : Nat → List Char → Option (List Json × List Char)
  | 0, _ => none
  | fuel + 1, cs => do
    let (item, rest) ← readValue fuel cs
    match dropBlanks rest with
    | ',' :: rest =>
      let (items, rest) ← readItems fuel rest
      return (item :: items, rest)
    | ']' :: rest => return ([item], rest)
    | _ => none

def readMembers : Nat → List Char → Option (List (Option String × Json) × List Char)
  | 0, _ => none
  | fuel + 1, cs => do
    let '"' :: rest := dropBlanks cs | none
    let (name, rest) ← readString rest
    let ':' :: rest := dropBlanks rest | none
    let (value, rest) ← readValue fuel rest
    match dropBlanks rest with
    | ',' :: rest =>
      let (members, rest) ← readMembers fuel rest
      return ((name, value) :: members, rest)
    | '\x7d' :: rest => return ([(name, value)], rest)
    | _ => none

end

/-- The value that a text holds, if it is exactly one JSON document. -/
def parse? (text : String) : Option Json := do
  let cs := text.toList
  let (value, rest) ← readValue (2 * cs.length + 2) cs
  if (dropBlanks rest).isEmpty then return value else none

end Peg.Json
