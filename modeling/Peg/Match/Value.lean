/-!
The values that matches give.
-/

namespace Peg

/-- What a match gives. `α` is the type of the values that code blocks make. -/
inductive Value (α : Type) where
  /-- Of predicates, lookaheads and optional expressions that are missing. -/
  | null
  /-- Of terminals and of expressions taken as text. -/
  | str (text : String)
  /-- Of sequences and repetitions. -/
  | list (items : List (Value α))
  | host (value : α)

namespace Value

variable {α : Type}

mutual

def concat : Value α → String
  | null | host _ => ""
  | str text => text
  | list items => concatAll items

def concatAll : List (Value α) → String
  | [] => ""
  | item :: items => item.concat ++ concatAll items

end

end Value

end Peg
