import Peg.Proofs.Derivation

/-! What of a log reaches the state of a parse. The furthest failures are noted; and where the
results of rules are kept, a rule that has come to a result at a place is not run there again, so
that what would happen in it happens no more. -/
namespace Peg

variable {σ α : Type}

/-- The furthest place where a failure was noted, and what was expected there, latest first. -/
structure Record where
  furthest : Cursor
  expected : List ExpectationId

namespace Record

/-- Failures before the furthest place are passed over, and those at it forgotten when there is one
behind it. -/
def note (r : Record) (failure : ExpectationId × Cursor) : Record :=
  if failure.2.offset < r.furthest.offset then r
  else if r.furthest.offset < failure.2.offset then ⟨failure.2, [failure.1]⟩
  else { r with expected := failure.1 :: r.expected }

def noteAll (r : Record) (failures : List (ExpectationId × Cursor)) : Record :=
  failures.foldl note r

theorem noteAll_append (r : Record) (failures failures' : List (ExpectationId × Cursor)) :
    r.noteAll (failures ++ failures') = (r.noteAll failures).noteAll failures' :=
  List.foldl_append

end Record

namespace State

def record (s : State σ α) : Record := ⟨s.furthest, s.expected⟩

theorem record_recordFailure (expectation : ExpectationId) (s : State σ α) :
    (s.recordFailure expectation).record =
      if s.muted then s.record else s.record.note (expectation, s.cursor) := by
  unfold recordFailure
  cases hm : s.muted with
  | true => rfl
  | false =>
    rw [Bool.false_or, if_neg Bool.false_ne_true]
    change _ = if s.cursor.offset < s.furthest.offset then s.record
      else if s.furthest.offset < s.cursor.offset then ⟨s.cursor, [expectation]⟩
      else ⟨s.furthest, expectation :: s.expected⟩
    by_cases hb : s.cursor.offset < s.furthest.offset
    · rw [if_pos (decide_eq_true hb), if_pos hb]
    · rw [if_neg (by simpa only [decide_eq_true_eq] using hb), if_neg hb]
      by_cases hf : s.furthest.offset < s.cursor.offset
      · rw [if_pos hf, if_pos hf]
        rfl
      · rw [if_neg hf, if_neg hf]
        rfl

end State

namespace Event

mutual

/-- What is left of an event when rules are not run again where they have come to a result before,
and where they have then. `seen` has the places where they have before the event; nothing is added
to it unless results are `kept`. -/
def unrepeated (kept : Bool) (seen : List (RuleId × Nat)) :
    Event α → List (Event α) × List (RuleId × Nat)
  | called call => ([.called call], seen)
  | missed expectation place => ([.missed expectation place], seen)
  | invoked rule place log =>
    if (rule, place.offset) ∈ seen then ([], seen)
    else
      let inner := unrepeatedAll kept seen log
      ([.invoked rule place inner.1],
        if kept then (rule, place.offset) :: inner.2 else inner.2)
  | muted log =>
    let inner := unrepeatedAll kept seen log
    ([.muted inner.1], inner.2)

def unrepeatedAll (kept : Bool) (seen : List (RuleId × Nat)) :
    List (Event α) → List (Event α) × List (RuleId × Nat)
  | [] => ([], seen)
  | event :: log =>
    let first := unrepeated kept seen event
    let rest := unrepeatedAll kept first.2 log
    (first.1 ++ rest.1, rest.2)

end

theorem unrepeatedAll_append (kept : Bool) (seen : List (RuleId × Nat))
    (log log' : List (Event α)) :
    unrepeatedAll kept seen (log ++ log') =
      ((unrepeatedAll kept seen log).1 ++
          (unrepeatedAll kept (unrepeatedAll kept seen log).2 log').1,
        (unrepeatedAll kept (unrepeatedAll kept seen log).2 log').2) := by
  induction log generalizing seen with
  | nil => rfl
  | cons event log ih =>
    rw [List.cons_append, unrepeatedAll, unrepeatedAll]
    dsimp only
    rw [ih, List.append_assoc]

theorem unrepeatedAll_singleton (kept : Bool) (seen : List (RuleId × Nat)) (event : Event α) :
    unrepeatedAll kept seen [event] = unrepeated kept seen event := by
  rw [unrepeatedAll, unrepeatedAll]
  dsimp only
  rw [List.append_nil]

/-- Where no results are kept, everything happens. -/
theorem unrepeatedAll_false (log : List (Event α)) : unrepeatedAll false [] log = (log, []) := by
  induction log using inductLog with
  | nil => rfl
  | called call log ih | missed expectation place log ih =>
    simp only [unrepeatedAll, unrepeated, ih, List.singleton_append]
  | invoked rule place inner log ihi ih =>
    simp only [unrepeatedAll, unrepeated, List.not_mem_nil, ihi, ih, ↓reduceIte,
      Bool.false_eq_true, List.singleton_append]
  | muted inner log ihi ih =>
    simp only [unrepeatedAll, unrepeated, ihi, ih, List.singleton_append]

end Event
end Peg
