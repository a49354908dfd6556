import Peg.Match.State

/-!
Matchers and how they are put together. A matcher that fails leaves the cursor and the labels as
they were, so that another one can take its place.
-/

namespace Peg.Matcher

variable {σ α ε : Type}

def fail (expectation : ExpectationId) : Matcher σ α ε := fun s =>
  (.failed, s.recordFailure expectation)

def literal (matcher : LiteralMatcher) (expectation : ExpectationId) : Matcher σ α ε := fun s =>
  match matcher.matchAt s.cursor with
  | some stop => (.matched (.str (matcher.matchedText s.cursor stop)), { s with cursor := stop })
  | none => fail expectation s

def char (accepts : Char → Bool) (expectation : ExpectationId) : Matcher σ α ε := fun s =>
  match s.cursor.peek with
  | some c =>
    if accepts c then (.matched (.str c.toString), { s with cursor := s.cursor.next })
    else fail expectation s
  | none => fail expectation s

/-- Drops the labels that a matcher binds. -/
def isolate (m : Matcher σ α ε) : Matcher σ α ε := fun s =>
  let (outcome, s') := m s
  (outcome, { s' with scope := s.scope })

/-- Leaves the failures of a matcher unrecorded. -/
def mute (m : Matcher σ α ε) : Matcher σ α ε := fun s =>
  let (outcome, s') := m { s with muted := true }
  (outcome, { s' with muted := s.muted })

/-- Changes the value of a match. The text from the cursor before to the one behind it is known. -/
def mapValue (f : String → Value α → Value α) (m : Matcher σ α ε) : Matcher σ α ε := fun s =>
  match m s with
  | (.matched value, s') => (.matched (f (s.cursor.textTo s'.cursor) value), s')
  | other => other

def labeled (label : String) (m : Matcher σ α ε) : Matcher σ α ε := fun s =>
  match isolate m s with
  | (.matched value, s') => (.matched value, { s' with scope := (label, value) :: s'.scope })
  | other => other

/-- Reports the failure of a matcher as one expectation where it started. -/
def named (expectation : ExpectationId) (m : Matcher σ α ε) : Matcher σ α ε := fun s =>
  match mute (isolate m) s with
  | (.failed, s') => fail expectation s'
  | other => other

def optional (m : Matcher σ α ε) : Matcher σ α ε := fun s =>
  match isolate m s with
  | (.failed, s') => (.matched .null, s')
  | other => other

/-- Matches as often as possible, once more than `bound` has characters at most. A match that
consumes nothing is the last one. -/
def repeatWithin (m : Matcher σ α ε) (bound : List Char) : Step σ α ε (List (Value α)) := fun s =>
  match isolate m s with
  | (.failed, s') => (.matched [], s')
  | (.aborted e, s') => (.aborted e, s')
  | (.matched value, s') =>
    -- Another round would match the same nothing again.
    if s'.cursor.offset = s.cursor.offset then (.matched [value], s')
    else
      match bound with
      | [] => (.matched [value], s')
      | _ :: bound =>
        match repeatWithin m bound s' with
        | (.matched values, s') => (.matched (value :: values), s')
        | other => other

/-- Matches as often as possible, but at least once if `needsOne`. As every match but the last
consumes a character, the characters left bound their number. -/
def repeated (needsOne : Bool) (m : Matcher σ α ε) : Matcher σ α ε := fun s =>
  match repeatWithin m s.cursor.rest s with
  | (.matched values, s') =>
    if needsOne && values.isEmpty then (.failed, s') else (.matched (.list values), s')
  | (.failed, s') => (.failed, s')
  | (.aborted e, s') => (.aborted e, s')

/-- Looks whether a matcher matches, without moving. If `negated`, it must not. -/
def lookahead (negated : Bool) (m : Matcher σ α ε) : Matcher σ α ε := fun s =>
  let (outcome, s') := mute (isolate m) s
  let back := { s' with cursor := s.cursor }
  match outcome with
  | .matched _ => (if negated then .failed else .matched .null, back)
  | .failed => (if negated then .matched .null else .failed, back)
  | .aborted e => (.aborted e, back)

/-- Calls the host for a code block that stands for the input from `start` to the cursor. -/
def callHost {β : Type} (kind : CallKind) (code : String) (start : Cursor)
    (value : Option (Value α)) (run : String → CodeContext α → σ → Except (CodeError ε) β × σ) :
    Step σ α ε β := fun s =>
  let context : CodeContext α := ⟨start, s.cursor, s.scope.reverse, value⟩
  let (answer, host) := run code context s.host
  let s := { s with calls := ⟨kind, code, context⟩ :: s.calls, host := host }
  match answer with
  | .ok result => (.matched result, s)
  | .error e => (.aborted (e.toParseError context), s)

/-- Lets the host make the value of a match. The labels that the match leaves bound are visible to
it, and dropped behind it. -/
def action (host : Host σ α ε) (code : String) (m : Matcher σ α ε) : Matcher σ α ε := fun s =>
  isolate (fun s =>
    match m s with
    | (.matched value, s') => callHost .action code s.cursor (some value) host.action s'
    | other => other) s

/-- Lets the host decide whether to match, without moving. If `negated`, it must say no. -/
def predicate (host : Host σ α ε) (negated : Bool) (code : String) : Matcher σ α ε := fun s =>
  match callHost .predicate code s.cursor none host.predicate s with
  | (.matched answer, s') => (if answer != negated then .matched .null else .failed, s')
  | (.failed, s') => (.failed, s')
  | (.aborted e, s') => (.aborted e, s')

end Peg.Matcher
