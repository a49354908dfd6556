import Peg.Proofs.OpenRules

/-! Words of trace events in which every rule that is entered is left once, after those that were
entered in it. Who counts rules in and out, as the log does, never loses count in such a word. -/
namespace Peg

variable {α : Type}

namespace TraceEvent

/-- The event tells that the rule is left that `opening` tells of: with a match that begins where
the rule was entered, or with a failure there. -/
structure Closes (closing opening : TraceEvent) : Prop where
  enters : opening.kind = .enter
  empty : opening.span.stop = opening.span.start
  rule : closing.rule = opening.rule
  start : closing.span.start = opening.span.start
  leaves : closing.kind = .matched ∨ closing.kind = .failed ∧ closing.span = opening.span

theorem leaving_closes (rule : String) (start : Cursor) (result : Option (Value α))
    (stop : Cursor) : (leaving rule start result stop).Closes (entering rule start) := by
  cases result with
  | some value => exact ⟨rfl, rfl, rfl, rfl, Or.inl rfl⟩
  | none => exact ⟨rfl, rfl, rfl, rfl, Or.inr ⟨rfl, rfl⟩⟩

variable {closing opening : TraceEvent}

theorem Closes.kind_ne (h : closing.Closes opening) : closing.kind ≠ .enter := by
  rcases h.leaves with hk | ⟨hk, -⟩
  · rw [hk]
    nofun
  · rw [hk]
    nofun

/-- What a rule opens is closed again. -/
theorem Closes.openAfter (h : closing.Closes opening) (opened : List (String × Nat)) :
    closing.openAfter (opening.openAfter opened) = opened := by
  rw [TraceEvent.openAfter, if_neg h.kind_ne, TraceEvent.openAfter, if_pos h.enters]
  rfl

/-- The rules that are open before the event, if `others` are open around the rule it tells of. -/
def openBefore (others : List (String × Nat)) (event : TraceEvent) : List (String × Nat) :=
  if event.kind = .enter then others else (event.rule, event.span.start.offset) :: others

theorem Closes.openBefore (h : closing.Closes opening) (opened : List (String × Nat)) :
    closing.openBefore opened = opening.openAfter opened := by
  rw [TraceEvent.openBefore, if_neg h.kind_ne, TraceEvent.openAfter, if_pos h.enters, h.rule,
    h.start]

end TraceEvent

/-- Pairs of events that stand one behind the other, with such words inside. -/
inductive Balanced : List TraceEvent → Prop
  | nil : Balanced []
  | pair {opening closing inner after} (closes : closing.Closes opening) (inside : Balanced inner)
      (behind : Balanced after) : Balanced (opening :: (inner ++ closing :: after))

theorem openAfter_append (opened : List (String × Nat)) (events events' : List TraceEvent) :
    openAfter opened (events ++ events') = openAfter (openAfter opened events) events' :=
  List.foldl_append

/-- A pair does not count if what stands inside does not. -/
theorem TraceEvent.Closes.openAfter_pair {closing opening : TraceEvent}
    (h : closing.Closes opening) {inner : List TraceEvent}
    (hinner : ∀ opened, Peg.openAfter opened inner = opened) (opened : List (String × Nat))
    (after : List TraceEvent) :
    Peg.openAfter opened (opening :: (inner ++ closing :: after)) = Peg.openAfter opened after := by
  calc
    Peg.openAfter opened (opening :: (inner ++ closing :: after))
      = Peg.openAfter (Peg.openAfter (opening.openAfter opened) inner) (closing :: after) :=
        openAfter_append _ inner _
    _ = Peg.openAfter (closing.openAfter (opening.openAfter opened)) after := by
        rw [hinner]
        rfl
    _ = Peg.openAfter opened after := by rw [h.openAfter]

namespace Balanced

variable {events : List TraceEvent}

/-- Behind the word, what was open before is open. -/
theorem openAfter (h : Balanced events) (opened : List (String × Nat)) :
    openAfter opened events = opened := by
  induction h generalizing opened with
  | nil => rfl
  | pair closes _ _ ih ih' => exact (closes.openAfter_pair ih opened _).trans (ih' opened)

/-- Wherever a rule is left, it is the last one that was entered of those that are open. -/
theorem exists_others (h : Balanced events) {before after : List TraceEvent} {event : TraceEvent}
    (he : events = before ++ event :: after) (opened : List (String × Nat)) :
    ∃ others, Peg.openAfter opened before = event.openBefore others := by
  induction h generalizing before after opened with
  | nil => exact absurd he.symm (List.append_ne_nil_of_right_ne_nil before (List.cons_ne_nil _ _))
  | @pair opening closing inner rest closes hinner _ ih ih' =>
    cases before with
    | nil =>
      cases he
      exact ⟨opened, (if_pos closes.enters).symm⟩
    | cons first before =>
      obtain ⟨rfl, hbehind⟩ := List.cons.inj he
      rcases List.append_eq_append_iff.mp hbehind with ⟨middle, rfl, hr⟩ | ⟨middle, hi, hr⟩
      · cases middle with
        | nil =>
          cases hr
          refine ⟨opened, ?_⟩
          rw [List.append_nil, closes.openBefore]
          exact hinner.openAfter _
        | cons last middle =>
          cases hr
          obtain ⟨others, ho⟩ := ih' rfl opened
          exact ⟨others, (closes.openAfter_pair hinner.openAfter opened middle).trans ho⟩
      · cases middle with
        | nil =>
          cases hr
          rw [List.append_nil] at hi
          subst hi
          exact ⟨opened, (hinner.openAfter _).trans (closes.openBefore opened).symm⟩
        | cons found middle =>
          cases hr
          exact ih hi (opening.openAfter opened)

end Balanced

namespace TraceEvent

def indented (indent : Nat) (event : TraceEvent) : String :=
  let kind := event.kind.name
  "TRACE " ++ event.span.describe ++ " " ++ kind
    ++ String.ofList (List.replicate (10 - kind.length) ' ') ++ " "
    ++ String.ofList (List.replicate (2 * indent) ' ') ++ event.rule

variable (event : TraceEvent)

/-- The rule of the event does not count for the indentation. -/
theorem logLine_openBefore (others : List (String × Nat)) :
    event.logLine (event.openBefore others).length = event.indented others.length := by
  unfold logLine openBefore indented
  split
  · rfl
  · rfl

theorem depthAfter_length (opened : List (String × Nat)) :
    event.depthAfter opened.length = (event.openAfter opened).length := by
  unfold depthAfter openAfter
  split
  · rfl
  · exact (List.length_tail).symm

/-- The log counts the rules that are open. -/
theorem foldl_depthAfter (opened : List (String × Nat)) (events : List TraceEvent) :
    events.foldl depthAfter opened.length = (Peg.openAfter opened events).length := by
  induction events generalizing opened with
  | nil => rfl
  | cons event events ih =>
    rw [List.foldl_cons, depthAfter_length, ih]
    rfl

theorem getElem?_logFrom (depth : Nat) (before after : List TraceEvent) :
    (logFrom depth (before ++ event :: after))[before.length]? =
      some (event.logLine (before.foldl depthAfter depth)) := by
  induction before generalizing depth with
  | nil => rfl
  | cons first before ih => exact ih (first.depthAfter depth)

theorem getElem?_log (before after : List TraceEvent) :
    (log (before ++ event :: after))[before.length]? =
      some (event.logLine (Peg.openAfter [] before).length) := by
  have hline := event.getElem?_logFrom 0 before after
  rwa [← List.length_nil, foldl_depthAfter] at hline

end TraceEvent

/-- In the log of what such a word begins with, every line is indented by the number of other rules
that are open around its event. -/
theorem Balanced.getElem?_log {word events before after : List TraceEvent} {event : TraceEvent}
    (h : Balanced word) (hp : events <+: word) (he : events = before ++ event :: after) :
    ∃ others, Peg.openAfter [] before = event.openBefore others ∧
      (TraceEvent.log events)[before.length]? = some (event.indented others.length) := by
  obtain ⟨rest, rfl⟩ := hp
  have hw : events ++ rest = before ++ event :: (after ++ rest) := by
    rw [he, List.append_assoc, List.cons_append]
  obtain ⟨others, ho⟩ := h.exists_others hw []
  refine ⟨others, ho, ?_⟩
  calc
    (TraceEvent.log events)[before.length]?
      = some (event.logLine (Peg.openAfter [] before).length) := by
        rw [he, TraceEvent.getElem?_log]
    _ = some (event.indented others.length) := by rw [ho, event.logLine_openBefore]

/-- Behind such a word, the log counts no rule as open. -/
theorem Balanced.foldl_depthAfter {word : List TraceEvent} (h : Balanced word) :
    word.foldl TraceEvent.depthAfter 0 = 0 := by
  have hcount := TraceEvent.foldl_depthAfter [] word
  rw [h.openAfter []] at hcount
  exact hcount

end Peg
