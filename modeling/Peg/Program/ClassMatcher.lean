import Peg.Grammar.Terminal
import Peg.Unicode.Case

/-!
Matching character classes. The parts of a class are sorted and merged into ranges, which are
searched by halving; for speed, a table answers for ASCII characters.
-/

namespace Peg

structure ClassMatcher where
  ranges : Array (Char × Char)
  inverted : Bool
  ignoreCase : Bool
  /-- For each ASCII character whether a range holds it, if the class is made for speed. -/
  ascii : Option (Array Bool)

namespace ClassMatcher

/-- The order of ranges: by their first characters, then by their last ones. -/
def rangeLe (r s : Char × Char) : Bool := r.1 < s.1 || (r.1 == s.1 && r.2 ≤ s.2)

/-- Merges sorted ranges into `current` as long as they overlap it or follow it directly. -/
def mergeInto (current : Char × Char) : List (Char × Char) → List (Char × Char)
  | [] => [current]
  | range :: ranges =>
    if range.1.toNat ≤ current.2.toNat + 1 then
      mergeInto (current.1, if current.2 ≤ range.2 then range.2 else current.2) ranges
    else current :: mergeInto range ranges

def mergeRanges : List (Char × Char) → List (Char × Char)
  | [] => []
  | range :: ranges => mergeInto range ranges

def rangesOf (parts : List ClassPart) : List (Char × Char) :=
  mergeRanges ((parts.map ClassPart.bounds).mergeSort rangeLe)

def holds (c : Char) (range : Char × Char) : Bool := range.1 ≤ c && c ≤ range.2

def ofClass (cls : CharClass) (forSpeed : Bool) : ClassMatcher :=
  let ranges := rangesOf cls.parts
  let ascii := if forSpeed then
      some ((Array.range 128).map fun code => ranges.any (holds (Char.ofNat code)))
    else none
  ⟨ranges.toArray, cls.inverted, cls.ignoreCase, ascii⟩

/-- The index of the range that can hold `c`, among the `size` ranges from index `base` on. Every
step halves their number; `c` lies in the lower half if the middle range begins behind it. -/
def narrow (ranges : Array (Char × Char)) (c : Char) : Nat → Nat → Nat → Nat
  | 0, base, _ => base
  | steps + 1, base, size =>
    if size ≤ 1 then base
    else
      let half := size / 2
      let below := ranges[base + half]?.any fun range => c ≤ range.2 && c < range.1
      narrow ranges c steps (if below then base else base + half) (size - half)

def search (ranges : Array (Char × Char)) (c : Char) : Bool :=
  ranges[narrow ranges c ranges.size 0 ranges.size]?.any (holds c)

def contains (matcher : ClassMatcher) (c : Char) : Bool :=
  match matcher.ascii.bind (·[c.toNat]?) with
  | some answer => answer
  | none => search matcher.ranges c

def accepts (matcher : ClassMatcher) (c : Char) : Bool :=
  let found := matcher.contains c || (matcher.ignoreCase
    && ((Unicode.lowercase c).any matcher.contains || (Unicode.uppercase c).any matcher.contains))
  found != matcher.inverted

end ClassMatcher

end Peg
