import Peg.Grammar.Terminal
import Peg.Text.Cursor
import Peg.Unicode.Case

/-!
Matching literals. Up to case, a literal takes as many characters as it has, and compares their
lowercase forms with the lowercase form of the whole literal.
-/

namespace Peg

structure LiteralMatcher where
  literal : Literal
  chars : List Char
  length : Nat
  /-- The lowercase form of the literal. -/
  folded : List Char

namespace LiteralMatcher

def ofLiteral (literal : Literal) : LiteralMatcher :=
  let chars := literal.text.toList
  ⟨literal, chars, chars.length, Unicode.lowercaseText chars⟩

def matchAt (matcher : LiteralMatcher) (c : Cursor) : Option Cursor :=
  if matcher.literal.ignoreCase then
    let window := c.rest.take matcher.length
    if window.length = matcher.length ∧ window.flatMap Unicode.lowercase = matcher.folded then
      some (c.skip matcher.length)
    else none
  else c.skipPrefix matcher.chars

def matchedText (matcher : LiteralMatcher) (start stop : Cursor) : String :=
  if matcher.literal.ignoreCase then start.textTo stop else matcher.literal.text

end LiteralMatcher

end Peg
