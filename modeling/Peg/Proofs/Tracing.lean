import Peg.Proofs.Steps

/-! Traced or not, a run is the same but for the events it notes. No step looks at these, and only
rules add to them. -/
namespace Peg

variable {σ α ε β : Type}

/-- Both steps do the same, except that they may note different events. -/
def SameButEvents (m m' : Step σ α ε β) : Prop :=
  ∀ (s s' : State σ α) (o : Outcome ε β) (events : List TraceEvent), m s = (o, s') →
    ∃ events', m' { s with events := events } = (o, { s' with events := events' })

namespace State

theorem recordFailure_events (expectation : ExpectationId) (s : State σ α)
    (events : List TraceEvent) :
    ({ s with events := events } : State σ α).recordFailure expectation =
      { s.recordFailure expectation with events := events } := by
  unfold recordFailure
  dsimp only
  split
  · rfl
  · split
    · rfl
    · rfl

theorem remember_events (program : Program) (traced : Bool) (id : RuleId) (start : Cursor)
    (result : Option (Value α)) (s : State σ α) (events : List TraceEvent) :
    ({ s with events := events } : State σ α).remember { program with traced := traced } id start
      result = { s.remember program id start result with events := events } := by
  unfold remember
  dsimp only
  split
  · rfl
  · rfl

end State

namespace Matcher

variable {m m' : Matcher σ α ε}

theorem literal_sameButEvents (matcher : LiteralMatcher) (expectation : ExpectationId) :
    SameButEvents (literal matcher expectation : Matcher σ α ε) (literal matcher expectation) := by
  intro s s' o events h
  unfold literal at h ⊢
  dsimp only
  split at h
  · cases h
    exact ⟨events, rfl⟩
  · cases h
    exact ⟨events, congrArg (Prod.mk _) (s.recordFailure_events expectation events)⟩

theorem char_sameButEvents (accepts : Char → Bool) (expectation : ExpectationId) :
    SameButEvents (char accepts expectation : Matcher σ α ε) (char accepts expectation) := by
  intro s s' o events h
  have hr := congrArg (Prod.mk (Outcome.failed : Outcome ε (Value α)))
    (s.recordFailure_events expectation events)
  unfold char at h ⊢
  dsimp only
  split at h
  · split at h
    · rename_i ha
      cases h
      rw [if_pos ha]
      exact ⟨events, rfl⟩
    · rename_i ha
      cases h
      rw [if_neg ha]
      exact ⟨events, hr⟩
  · cases h
    exact ⟨events, hr⟩

theorem isolate_sameButEvents (hm : SameButEvents m m') :
    SameButEvents (isolate m) (isolate m') := by
  intro s s' o events h
  rcases he : m s with ⟨o₁, t⟩
  obtain ⟨events', he'⟩ := hm s t o₁ events he
  rw [isolate_eq he] at h
  cases h
  exact ⟨events', isolate_eq he'⟩

theorem text_sameButEvents (f : String → Value α → Value α) (hm : SameButEvents m m') :
    SameButEvents (mapValue f (isolate m)) (mapValue f (isolate m')) := by
  intro s s' o events h
  rcases he : m s with ⟨o₁, t⟩
  obtain ⟨events', he'⟩ := hm s t o₁ events he
  rw [mapValue_isolate_eq f he] at h
  cases h
  exact ⟨events', mapValue_isolate_eq f he'⟩

theorem labeled_sameButEvents (label : String) (hm : SameButEvents m m') :
    SameButEvents (labeled label m) (labeled label m') := by
  intro s s' o events h
  rcases he : m s with ⟨o₁, t⟩
  obtain ⟨events', he'⟩ := hm s t o₁ events he
  rw [labeled_eq label he] at h
  cases h
  exact ⟨events', labeled_eq label he'⟩

theorem named_sameButEvents (expectation : ExpectationId) (hm : SameButEvents m m') :
    SameButEvents (named expectation m) (named expectation m') := by
  intro s s' o events h
  rcases he : m { s with muted := true } with ⟨o₁, t⟩
  obtain ⟨events', he'⟩ := hm { s with muted := true } t o₁ events he
  rw [named_eq expectation he] at h
  refine ⟨events', (named_eq expectation (s := { s with events := events }) he').trans ?_⟩
  cases o₁ with
  | matched value => cases h; rfl
  | failed =>
    cases h
    exact congrArg (Prod.mk _) (State.recordFailure_events expectation
      { t with scope := s.scope, muted := s.muted } events')
  | aborted e => cases h; rfl

theorem optional_sameButEvents (hm : SameButEvents m m') :
    SameButEvents (optional m) (optional m') := by
  intro s s' o events h
  rcases he : m s with ⟨o₁, t⟩
  obtain ⟨events', he'⟩ := hm s t o₁ events he
  rw [optional_eq he] at h
  cases h
  exact ⟨events', optional_eq he'⟩

theorem lookahead_sameButEvents (negated : Bool) (hm : SameButEvents m m') :
    SameButEvents (lookahead negated m) (lookahead negated m') := by
  intro s s' o events h
  rcases he : m { s with muted := true } with ⟨o₁, t⟩
  obtain ⟨events', he'⟩ := hm { s with muted := true } t o₁ events he
  rw [lookahead_eq negated he] at h
  cases h
  exact ⟨events', lookahead_eq negated (s := { s with events := events }) he'⟩

theorem Rounds.sameButEvents (hm : SameButEvents m m') {bound : List Char} {s s' : State σ α}
    {o : Outcome ε (List (Value α))} (h : Rounds m bound s o s') (events : List TraceEvent) :
    ∃ events', Rounds m' bound { s with events := events } o { s' with events := events' } := by
  induction h generalizing events with
  | failed h =>
    obtain ⟨events', h'⟩ := hm _ _ _ events h
    exact ⟨events', .failed h'⟩
  | aborted h =>
    obtain ⟨events', h'⟩ := hm _ _ _ events h
    exact ⟨events', .aborted h'⟩
  | last h hend =>
    obtain ⟨events', h'⟩ := hm _ _ _ events h
    exact ⟨events', .last h' hend⟩
  | again h hmoved hrest ih =>
    obtain ⟨between, h'⟩ := hm _ _ _ events h
    obtain ⟨events', hrest'⟩ := ih between
    exact ⟨events', .again h' hmoved hrest'⟩

theorem repeated_sameButEvents (needsOne : Bool) (hm : SameButEvents m m') :
    SameButEvents (repeated needsOne m) (repeated needsOne m') := by
  intro s s' o events he
  obtain ⟨o', t, h⟩ := exists_rounds m s.cursor.rest s
  obtain ⟨events', h'⟩ := h.sameButEvents hm events
  rw [repeated_eq needsOne h] at he
  cases he
  exact ⟨events', repeated_eq needsOne h'⟩

theorem action_sameButEvents (host : Host σ α ε) (code : String) (hm : SameButEvents m m') :
    SameButEvents (action host code m) (action host code m') := by
  intro s s' o events h
  rcases he : m s with ⟨o₁, t⟩
  obtain ⟨events', he'⟩ := hm s t o₁ events he
  rw [action_eq host code he] at h
  refine ⟨events', (action_eq host code he').trans ?_⟩
  cases o₁ with
  | matched value => cases h; rfl
  | failed => cases h; rfl
  | aborted e => cases h; rfl

theorem predicate_sameButEvents (host : Host σ α ε) (negated : Bool) (code : String) :
    SameButEvents (predicate host negated code : Matcher σ α ε) (predicate host negated code) := by
  intro s s' o events h
  rw [predicate_eq] at h
  cases h
  exact ⟨events, predicate_eq host negated code { s with events := events }⟩

end Matcher

namespace Node

variable (host : Host σ α ε) {call call' : RuleId → Matcher σ α ε}

theorem sequence_sameButEvents {nodes : List Node}
    (hn : ∀ node ∈ nodes, SameButEvents (node.run host call) (node.run host call')) :
    SameButEvents ((Node.sequence nodes).run host call) ((Node.sequence nodes).run host call') := by
  induction nodes with
  | nil =>
    intro s s' o events h
    rw [run_sequence_nil] at h ⊢
    cases h
    exact ⟨events, rfl⟩
  | cons node nodes ih =>
    intro s s' o events h
    rcases he : node.run host call s with ⟨o₁, t⟩
    obtain ⟨events', he'⟩ := hn node List.mem_cons_self s t o₁ events he
    rw [run_sequence_cons host call node nodes he] at h
    rw [run_sequence_cons host call' node nodes he']
    cases o₁ with
    | matched value =>
      rcases hr : (Node.sequence nodes).run host call t with ⟨o₂, t'⟩
      obtain ⟨events'', hr'⟩ := ih (fun n hm => hn n (List.mem_cons_of_mem _ hm)) t t' o₂ events' hr
      dsimp only at h ⊢
      rw [hr] at h
      refine ⟨events'', ?_⟩
      rw [hr']
      cases o₂ with
      | matched values => cases h; rfl
      | failed => cases h; rfl
      | aborted e => cases h; rfl
    | failed => cases h; exact ⟨events', rfl⟩
    | aborted e => cases h; exact ⟨events', rfl⟩

theorem choice_sameButEvents {nodes : List Node}
    (hn : ∀ node ∈ nodes, SameButEvents (node.run host call) (node.run host call')) :
    SameButEvents ((Node.choice nodes).run host call) ((Node.choice nodes).run host call') := by
  induction nodes with
  | nil =>
    intro s s' o events h
    rw [run_choice_nil] at h ⊢
    cases h
    exact ⟨events, rfl⟩
  | cons node nodes ih =>
    intro s s' o events h
    rcases he : node.run host call s with ⟨o₁, t⟩
    obtain ⟨events', he'⟩ := hn node List.mem_cons_self s t o₁ events he
    rw [run_choice_cons host call node nodes he] at h
    rw [run_choice_cons host call' node nodes he']
    cases o₁ with
    | matched value => cases h; exact ⟨events', rfl⟩
    | failed =>
      exact ih (fun n hm => hn n (List.mem_cons_of_mem _ hm)) { t with scope := s.scope } s' o
        events' h
    | aborted e => cases h; exact ⟨events', rfl⟩

theorem run_sameButEvents (hc : ∀ id, SameButEvents (call id) (call' id)) (node : Node) :
    SameButEvents (node.run host call) (node.run host call') := by
  induction node using Node.induct with
  | literal matcher expectation => rw [run, run]; exact Matcher.literal_sameButEvents _ _
  | charClass matcher expectation => rw [run, run]; exact Matcher.char_sameButEvents _ _
  | any expectation => rw [run, run]; exact Matcher.char_sameButEvents _ _
  | ruleRef id => rw [run, run]; exact hc id
  | predicate negated code => rw [run, run]; exact Matcher.predicate_sameButEvents host negated code
  | sequence nodes ih => exact sequence_sameButEvents host ih
  | choice nodes ih => exact choice_sameButEvents host ih
  | wrapped operator body ih =>
    rw [run, run]
    cases operator with
    | labeled label => exact Matcher.labeled_sameButEvents label ih
    | named expectation => exact Matcher.named_sameButEvents expectation ih
    | action code => exact Matcher.action_sameButEvents host code ih
    | text => exact Matcher.text_sameButEvents (fun text _ => .str text) ih
    | optional => exact Matcher.optional_sameButEvents ih
    | zeroOrMore => exact Matcher.repeated_sameButEvents false ih
    | oneOrMore => exact Matcher.repeated_sameButEvents true ih
    | group => exact Matcher.isolate_sameButEvents ih
    | followedBy => exact Matcher.lookahead_sameButEvents false ih
    | notFollowedBy => exact Matcher.lookahead_sameButEvents true ih

end Node

namespace Program

variable (program : Program) (host : Host σ α ε) (traced : Bool)

theorem leave_sameButEvents (rule : CompiledRule) (start : Cursor) (result : Option (Value α)) :
    SameButEvents (State.leave program rule start result : Matcher σ α ε)
      (State.leave { program with traced := traced } rule start result) := by
  intro s s' o events h
  obtain ⟨e₁, he₁⟩ := State.leave_eq program rule start result s
  obtain ⟨e₂, he₂⟩ := State.leave_eq { program with traced := traced } rule start result
    { s with events := events }
  rw [he₁] at h
  cases h
  exact ⟨e₂, he₂⟩

theorem enter_sameButEvents (id : RuleId) {body body' : CompiledRule → Matcher σ α ε}
    (hb : ∀ rule, SameButEvents (body rule) (body' rule)) :
    SameButEvents (program.enter id body) ({ program with traced := traced }.enter id body') := by
  intro s s' o events h
  unfold enter at h ⊢
  dsimp only at h ⊢
  cases hr : program.rules[id]? with
  | none =>
    rw [hr] at h
    cases h
    exact ⟨events, rfl⟩
  | some rule =>
    obtain ⟨e₁, he₁⟩ := State.trace_eq program .enter rule s.cursor s.cursor s
    obtain ⟨e₂, he₂⟩ := State.trace_eq { program with traced := traced } .enter rule s.cursor
      s.cursor { s with events := events }
    rw [hr] at h
    dsimp only at h ⊢
    rw [he₁] at h
    rw [he₂]
    have hm : ({ s with events := e₂ } : State σ α).memoized? { program with traced := traced } id =
      ({ s with events := e₁ } : State σ α).memoized? program id := rfl
    rw [hm]
    cases hv : ({ s with events := e₁ } : State σ α).memoized? program id with
    | some result =>
      rw [hv] at h
      exact leave_sameButEvents program traced rule s.cursor result.value _ s' o e₂ h
    | none =>
      rw [hv] at h
      exact hb rule { s with events := e₁ } s' o e₂ h

theorem evaluate_sameButEvents {call call' : RuleId → Matcher σ α ε}
    (hc : ∀ id, SameButEvents (call id) (call' id)) (id : RuleId) (rule : CompiledRule) :
    SameButEvents (program.evaluate host call id rule)
      ({ program with traced := traced }.evaluate host call' id rule) := by
  intro s s' o events h
  rcases he : rule.node.run host call { s with scope := [] } with ⟨o₁, t⟩
  obtain ⟨events', he'⟩ := Node.run_sameButEvents host hc rule.node { s with scope := [] } t o₁
    events he
  obtain ⟨result, rfl⟩ | ⟨e, rfl⟩ := o₁.ended_or_aborted
  · rw [evaluate_ended program host call id rule he] at h
    rw [evaluate_ended { program with traced := traced } host call' id rule
      (s := { s with events := events }) he']
    have hr := State.remember_events program traced id s.cursor result
      ({ t with scope := s.scope } : State σ α) events'
    dsimp only at hr ⊢
    rw [hr]
    exact leave_sameButEvents program traced rule s.cursor result _ s' o events' h
  · rw [evaluate_aborted program host call id rule he] at h
    rw [evaluate_aborted { program with traced := traced } host call' id rule
      (s := { s with events := events }) he']
    cases h
    exact ⟨events', rfl⟩

/-- Nothing but the events depends on whether a program is traced. -/
theorem invoke_sameButEvents (limit depth : Nat) (id : RuleId) :
    SameButEvents (program.invoke host limit depth id)
      ({ program with traced := traced }.invoke host limit depth id) := by
  induction depth generalizing id with
  | zero =>
    refine enter_sameButEvents program traced id fun rule s s' o events h => ?_
    cases h
    exact ⟨events, rfl⟩
  | succ depth ih =>
    exact enter_sameButEvents program traced id
      (evaluate_sameButEvents program host traced ih id)

theorem runInitializer_sameButEvents :
    SameButEvents (program.runInitializer host)
      ({ program with traced := traced }.runInitializer host) := by
  intro s s' o events h
  unfold runInitializer at h ⊢
  dsimp only at h ⊢
  cases hi : program.initializer with
  | none =>
    rw [hi] at h
    cases h
    exact ⟨events, rfl⟩
  | some code =>
    rw [hi] at h
    rcases ha : host.prepare code ⟨s.cursor, s.cursor, s.scope.reverse, none⟩ s.host with
      ⟨answer, memory⟩
    simp only [Matcher.callHost, ha] at h ⊢
    cases answer with
    | ok result => cases h; exact ⟨events, rfl⟩
    | error e => cases h; exact ⟨events, rfl⟩

theorem runFrom_sameButEvents (maxDepth : Nat) (start : RuleId) :
    SameButEvents (program.runFrom host maxDepth start)
      ({ program with traced := traced }.runFrom host maxDepth start) := by
  intro s s' o events h
  rcases he : program.runInitializer host s with ⟨o₁, t⟩
  obtain ⟨events', he'⟩ := runInitializer_sameButEvents program host traced s t o₁ events he
  unfold runFrom at h ⊢
  rw [he] at h
  rw [he']
  cases o₁ with
  | matched result =>
    exact invoke_sameButEvents program host traced maxDepth maxDepth start t s' o events' h
  | failed => cases h; exact ⟨events', rfl⟩
  | aborted e => cases h; exact ⟨events', rfl⟩

/-- A parse comes to the same, with the same calls of the host, whether it is traced or not. -/
theorem parse_traced (memory : σ) (input : String) (how : ParseOptions) :
    ({ program with traced := traced }.parse host memory input how).outcome =
        (program.parse host memory input how).outcome ∧
      ({ program with traced := traced }.parse host memory input how).calls =
        (program.parse host memory input how).calls ∧
      ({ program with traced := traced }.parse host memory input how).host =
        (program.parse host memory input how).host := by
  have hf : { program with traced := traced }.findStart how.startRule =
    program.findStart how.startRule := rfl
  unfold parse
  rw [hf]
  cases program.findStart how.startRule with
  | error e => exact ⟨rfl, rfl, rfl⟩
  | ok start =>
    dsimp only
    rcases hr : program.runFrom host how.maxDepth start (.initial input memory) with ⟨o, s⟩
    obtain ⟨events, hr'⟩ := runFrom_sameButEvents program host traced how.maxDepth start
      (.initial input memory) s o [] hr
    have hi : ({ State.initial input memory with events := [] } : State σ α) =
      .initial input memory := rfl
    rw [hi] at hr'
    rw [hr']
    refine ⟨?_, rfl, rfl⟩
    cases o with
    | matched value =>
      simp only [answer, State.recordFailure_events]
      rfl
    | failed => rfl
    | aborted e => rfl

end Program
end Peg
