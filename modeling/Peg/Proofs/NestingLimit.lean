import Peg.Proofs.Truncation

/-! Where a parse ends at the limit of nested rules. It does so where the parse with a higher limit
first runs a rule inside as many others as the limit allows; and otherwise both are the same. -/
namespace Peg

variable {σ α ε β γ : Type} {text : Cursor}

theorem State.events_of_trail {s t : State σ α} (h : t.trail = s.trail) : t.events = s.events :=
  congrArg Prod.snd h

namespace TraceEvent

/-- The first rule that the events enter inside exactly `n` others, `depth` of them being open
before the events. -/
def firstInside (n : Nat) : Nat → List TraceEvent → Option TraceEvent
  | _, [] => none
  | depth, event :: events =>
    if event.kind = .enter ∧ depth = n then some event
    else firstInside n (event.depthAfter depth) events

theorem firstInside_cons {n depth : Nat} {event : TraceEvent} (he : event.kind = .enter)
    (hd : depth ≠ n) (events : List TraceEvent) :
    firstInside n depth (event :: events) = firstInside n (depth + 1) events := by
  rw [firstInside, if_neg fun h => hd h.2, depthAfter, if_pos he]

theorem firstInside_append (n depth : Nat) (events events' : List TraceEvent) :
    firstInside n depth (events ++ events') =
      (firstInside n depth events).or (firstInside n (events.foldl depthAfter depth) events') := by
  induction events generalizing depth with
  | nil => rfl
  | cons event events ih =>
    rw [List.cons_append, firstInside, firstInside, ih, List.foldl_cons]
    split <;> rfl

theorem firstInside_of_suffix {n : Nat} {events events' : List TraceEvent} {event : TraceEvent}
    (h : firstInside n 0 events.reverse = some event) (hs : events <:+ events') :
    firstInside n 0 events'.reverse = some event := by
  obtain ⟨later, rfl⟩ := hs
  rw [List.reverse_append, firstInside_append, h]
  rfl

end TraceEvent

/-- How a step may end that starts in `s` with `depth` rules open: it closes what it opens, unless
the parse ends in it; and this happens at the limit of nested rules exactly where a rule is first
entered inside as many others as that allows. -/
def State.Halts (limit depth : Nat) (s : State σ α) (r : Outcome ε β × State σ α) : Prop :=
  ∃ events, r.2.events = events.reverse ++ s.events ∧
    match TraceEvent.firstInside limit depth events with
    | some event => r.1 = .aborted (.nestingLimit limit event.span.start.offset)
    | none => (∀ limit offset, r.1 ≠ .aborted (.nestingLimit limit offset)) ∧
      ((∀ e, r.1 ≠ .aborted e) → events.foldl TraceEvent.depthAfter depth = depth)

def halting (limit depth : Nat) : Contract σ α ε where
  Allows := State.Halts limit depth
  still ht ho := ⟨[], State.events_of_trail ht, ho, fun _ => rfl⟩
  around h hs ht ha hl := by
    obtain ⟨events, he, h⟩ := h
    refine ⟨events, ?_, ?_⟩
    · rw [State.events_of_trail hs]
      exact (State.events_of_trail ht).trans he
    · cases hf : TraceEvent.firstInside limit depth events with
      | some event =>
        rw [hf] at h
        exact ha _ h
      | none =>
        rw [hf] at h
        exact ⟨fun l offset hv => h.1 l offset (hl l offset hv),
          fun hv => h.2 fun e he => hv e (ha e he)⟩
  trans h hv h' ht := by
    obtain ⟨events, he, h⟩ := h
    obtain ⟨events', he', h'⟩ := h'
    dsimp only at he he'
    cases hf : TraceEvent.firstInside limit depth events with
    | some event =>
      rw [hf] at h
      exact absurd h (hv _)
    | none =>
      rw [hf] at h
      have hclosed := h.2 hv
      refine ⟨events ++ events', ?_, ?_⟩
      · rw [he', State.events_of_trail ht, he, List.reverse_append, List.append_assoc]
      · rw [TraceEvent.firstInside_append, hf, Option.none_or, hclosed, List.foldl_append, hclosed]
        exact h'

namespace State

variable {limit depth : Nat} {s s₁ t t' : State σ α} {opening closing : TraceEvent}
  {e : ParseError ε}
  {o : Outcome ε β} {o' : Outcome ε γ}

/-- A rule in which the parse ends. -/
theorem Halts.enter (ho : opening.kind = .enter) (hd : depth ≠ limit)
    (hs : s₁.events = opening :: s.events)
    (h : s₁.Halts limit (depth + 1) ((.aborted e : Outcome ε β), t)) (ht : t'.events = t.events) :
    s.Halts limit depth ((.aborted e : Outcome ε γ), t') := by
  obtain ⟨events, he, h⟩ := h
  refine ⟨opening :: events, ?_, ?_⟩
  · rw [List.reverse_cons, List.append_assoc]
    exact ht.trans (he.trans (congrArg _ hs))
  · rw [TraceEvent.firstInside_cons ho hd]
    cases hf : TraceEvent.firstInside limit (depth + 1) events with
    | some event =>
      rw [hf] at h
      cases h
      rfl
    | none =>
      rw [hf] at h
      refine ⟨fun l offset hv => h.1 l offset ?_, fun hv => absurd rfl (hv e)⟩
      cases hv
      rfl

/-- A rule that is left again. -/
theorem Halts.enter_leave (ho : opening.kind = .enter) (hc : closing.kind ≠ .enter)
    (hd : depth ≠ limit) (hs : s₁.events = opening :: s.events)
    (h : s₁.Halts limit (depth + 1) (o, t)) (hv : ∀ e, o ≠ .aborted e) (hv' : ∀ e, o' ≠ .aborted e)
    (ht : t'.events = closing :: t.events) : s.Halts limit depth (o', t') := by
  obtain ⟨events, he, h⟩ := h
  cases hf : TraceEvent.firstInside limit (depth + 1) events with
  | some event =>
    rw [hf] at h
    exact absurd h (hv _)
  | none =>
    rw [hf] at h
    have hclosed := h.2 hv
    refine ⟨opening :: (events ++ [closing]), ?_, ?_⟩
    · rw [List.reverse_cons, List.reverse_append, List.reverse_singleton, List.append_assoc,
        List.append_assoc]
      exact ht.trans (congrArg _ (he.trans (congrArg _ hs)))
    · rw [TraceEvent.firstInside_cons ho hd, TraceEvent.firstInside_append, hf, Option.none_or,
        hclosed, TraceEvent.firstInside, if_neg fun h => hc h.1]
      refine ⟨fun l offset => hv' _, fun _ => ?_⟩
      have hopened : opening.depthAfter depth = depth + 1 := if_pos ho
      rw [List.foldl_cons, List.foldl_append, hopened, hclosed]
      exact if_neg hc

end State

namespace Program

variable (program : Program) (host : Host σ α ε)

/-- A rule ends so if the depth that is left and the rules that are open make up the limit. -/
theorem invokeNew_halts {limit depth opened : Nat} (hl : opened + depth = limit) (id : RuleId) :
    Keeps text (RuleResult.Lawful fun _ => false) (halting limit opened) 0
      (program.invokeNew host limit depth id) := by
  -- As no depth is left exactly where `limit` rules are open, the run ends where the events say.
  induction depth using Nat.strongRecOn generalizing opened id with
  | _ depth ih =>
    intro s hs _
    rcases h : program.invokeNew host limit depth id s with ⟨o, s'⟩
    rcases invokeNew_cases program host limit h with ⟨-, rfl, rfl⟩ | ⟨result, -, rfl, rfl⟩ |
      ⟨rule, -, -, rfl, rfl, rfl⟩ | ⟨rule, depth', o', t, -, -, rfl, hb, hend⟩
    · exact (halting limit opened).still rfl nofun
    · exact (halting limit opened).still rfl fun l offset => Outcome.ofOption_ne_aborted _ _
    · refine ⟨[.entering rule.name s.cursor], rfl, ?_⟩
      rw [TraceEvent.firstInside, if_pos ⟨rfl, hl⟩]
      rfl
    · have hinner (id : RuleId) : Keeps text (RuleResult.Lawful fun _ => false)
          (halting limit (opened + 1)) 0 (program.invokeNew host limit depth' id) :=
        ih depth' (Nat.lt_succ_self _) (by omega) id
      have hbody := rule.node.run_keeps_of_all host
        (fun id => invokeNew_restores program host limit depth' id) hinner
        { s with scope := [], events := .entering rule.name s.cursor :: s.events }
        ⟨hs.inText, hs.kept⟩ (Nat.zero_le _)
      rw [hb] at hbody
      have hd : opened ≠ limit := by omega
      rcases hend with ⟨e, rfl, rfl, rfl⟩ | ⟨result, rfl, rfl, rfl⟩
      · exact State.Halts.enter rfl hd rfl hbody rfl
      · exact State.Halts.enter_leave rfl
          (TraceEvent.leaving_kind_ne rule.name s.cursor result t.cursor) hd rfl hbody
          (Outcome.ofOption_ne_aborted result) (Outcome.ofOption_ne_aborted result) rfl

/-- And so does a parse. -/
theorem runNew_halts (limit : Nat) (start : RuleId) (input : String) (memory : σ) :
    (State.initial input memory).Halts limit 0
      (program.runNew host limit start (.initial input memory)) := by
  unfold runNew
  rcases runInitializer_cases program host input memory with ⟨memory', calls, hi⟩ |
    ⟨e, context, memory', calls, hi⟩
  · rw [hi]
    exact invokeNew_halts program host (Nat.zero_add limit) start _
      (State.sound_initial input memory' calls) (Nat.zero_le _)
  · rw [hi]
    exact (halting limit 0).still rfl fun l offset hv =>
      Matcher.toParseError_ne_nestingLimit context e l offset (Outcome.aborted.inj hv)

/-- The run ends at the limit of nested rules where one with a higher limit first runs a rule inside
as many others as the limit allows. -/
theorem runNew_aborted_iff {limit deeper : Nat} (hd : limit ≤ deeper) (start : RuleId)
    (input : String) (memory : σ) {limit' offset : Nat} :
    (program.runNew host limit start (.initial input memory)).1 =
        .aborted (.nestingLimit limit' offset) ↔
      limit' = limit ∧ ∃ event, TraceEvent.firstInside limit 0
        (program.runNew host deeper start (.initial input memory)).2.events.reverse = some event ∧
        event.span.start.offset = offset := by
  obtain ⟨events, he, h⟩ := runNew_halts program host limit start input memory
  have hcut := runNew_cutOff program host hd start input memory
  rcases hr : program.runNew host limit start (.initial input memory) with ⟨o, s⟩
  rw [hr] at he h hcut
  have hevents : s.events.reverse = events := by
    rw [he]
    exact (congrArg List.reverse (List.append_nil _)).trans (List.reverse_reverse events)
  cases hf : TraceEvent.firstInside limit 0 events with
  | some event =>
    rw [hf] at h
    have hdeeper : TraceEvent.firstInside limit 0
        (program.runNew host deeper start (.initial input memory)).2.events.reverse =
          some event := by
      refine TraceEvent.firstInside_of_suffix (hevents ▸ hf) ?_
      rcases hcut with heq | ⟨-, hsuffix⟩
      · rw [heq]
      · exact hsuffix
    rw [hdeeper]
    dsimp only at h ⊢
    rw [h]
    constructor
    · intro hv
      cases hv
      exact ⟨rfl, event, rfl, rfl⟩
    · rintro ⟨rfl, event', hv, rfl⟩
      cases hv
      rfl
  | none =>
    rw [hf] at h
    constructor
    · exact fun hv => absurd hv (h.1 limit' offset)
    · rintro ⟨-, event, hv, -⟩
      rcases hcut with heq | ⟨⟨l, o, hl⟩, -⟩
      · rw [heq, hevents, hf] at hv
        cases hv
      · exact absurd hl (h.1 l o)

end Program

/-- The limit of nested rules is only a guard. A parse that does not end at its limit comes to the
same with a higher one, with the same calls of the host and the same trace. It ends at its limit if
and only if the parse with a higher one runs a rule anew inside as many others as the lower one
allows, and tells where it first does so. Which rules are run anew is told by a run that is the same
as the parse but for what it notes. -/
theorem Program.limit_only_guards (program : Program) (host : Host σ α ε) (memory : σ)
    (input : String) (how : ParseOptions) {deeper : Nat} (hd : how.maxDepth ≤ deeper) :
    ((∀ limit offset,
        (program.parse host memory input how).outcome ≠ .error (.nestingLimit limit offset)) →
      program.parse host memory input { how with maxDepth := deeper } =
        program.parse host memory input how) ∧
    (∀ limit offset,
      (program.parse host memory input how).outcome = .error (.nestingLimit limit offset) ↔
        limit = how.maxDepth ∧ ∃ event, TraceEvent.firstInside how.maxDepth 0
          (program.newCalls host memory input { how with maxDepth := deeper }) = some event ∧
          event.span.start.offset = offset) ∧
    ∀ start, SameButEvents (program.runFrom host deeper start)
      (program.runNew host deeper start) := by
  refine ⟨fun hne => ?_, fun limit offset => ?_, program.runNew_sameButEvents host deeper⟩
  · cases hs : program.findStart how.startRule with
    | error name => simp only [parse, hs]
    | ok start =>
      have hcut := program.runFrom_cutOff host hd start input memory
      rcases hr : program.runFrom host how.maxDepth start (.initial input memory) with ⟨o, s⟩
      rw [hr] at hcut
      rcases hcut with heq | ⟨⟨limit, offset, ho⟩, -⟩
      · simp only [parse, hs, hr, heq]
      · cases ho
        exact absurd (congrArg ParseResult.outcome (parse_eq hs hr)) (hne limit offset)
  · cases hs : program.findStart how.startRule with
    | error name =>
      simp only [parse, newCalls, hs, TraceEvent.firstInside]
      constructor
      · intro hv
        cases hv
      · rintro ⟨-, event, hv, -⟩
        cases hv
    | ok start =>
      rcases hr : program.runFrom host how.maxDepth start (.initial input memory) with ⟨o, s⟩
      obtain ⟨events, hnew⟩ := program.runNew_sameButEvents host how.maxDepth start _ s o [] hr
      have ho : (program.runNew host how.maxDepth start (.initial input memory)).1 = o :=
        congrArg Prod.fst hnew
      have hcalls : program.newCalls host memory input { how with maxDepth := deeper } =
          (program.runNew host deeper start (.initial input memory)).2.events.reverse := by
        simp only [newCalls, hs]
      rw [hcalls, ← runNew_aborted_iff program host hd start input memory, ho, parse_eq hs hr]
      exact ⟨aborted_of_answer, fun hv => by rw [hv]; rfl⟩

/-- The rule `word` is run inside `start`, which the limit must allow. -/
theorem Program.limit_only_guards_peek :
    1 ≤ 2 ∧ 2 ≤ 512 ∧
    ((Grammar.peekParser true).parse (Host.refusing : Host Unit Unit) () "abd"
      { maxDepth := 1 }).outcome = .error (.nestingLimit 1 0) ∧
    (Grammar.peekParser true).parse (Host.refusing : Host Unit Unit) () "abd"
        { maxDepth := 512 } =
      (Grammar.peekParser true).parse (Host.refusing : Host Unit Unit) () "abd"
        { maxDepth := 2 } := by
  have hlow : 1 ≤ 2 := by decide
  have hhigh : 2 ≤ 512 := by decide
  have hinside : TraceEvent.firstInside 1 0 ((Grammar.peekParser true).newCalls
      (Host.refusing : Host Unit Unit) () "abd" { maxDepth := 2 }) =
        some (.entering "word" (.ofText "abd")) := by decide +kernel
  have ho : (((Grammar.peekParser true).parse (Host.refusing : Host Unit Unit) () "abd"
      { maxDepth := 2 }).outcome.map fun answer => answer.2) = .ok 3 := by decide +kernel
  obtain ⟨answer, ha, -⟩ := map_eq_ok ho
  exact ⟨hlow, hhigh,
    ((limit_only_guards (Grammar.peekParser true) (Host.refusing : Host Unit Unit) () "abd"
      { maxDepth := 1 } hlow).2.1 1 0).mpr ⟨rfl, _, hinside, rfl⟩,
    (limit_only_guards (Grammar.peekParser true) (Host.refusing : Host Unit Unit) () "abd"
      { maxDepth := 2 } hhigh).1 fun limit offset hv => nomatch ha.symm.trans hv⟩

end Peg
