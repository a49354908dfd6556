import Peg.Proofs.Nesting

/-! Which rules are run anew. To tell them from those whose result is kept already, a run is looked
at that notes nothing of the latter; otherwise it is the same run. -/
namespace Peg

variable {σ α ε β : Type} {text : Cursor} {Kept : RuleId → Cursor → RuleResult α → Prop}

/-- What a rule comes to does not depend on the events. -/
theorem SameButEvents.gives {m m' : Matcher σ α ε} (h : SameButEvents m m') {id : RuleId}
    (hm : Gives text Kept id m) : Gives text Kept id m' := by
  intro s s' o hs he
  rcases hv : m s with ⟨o₁, t⟩
  obtain ⟨events, hv'⟩ := h s t o₁ s.events hv
  cases hv'.symm.trans he
  rcases hm s t o hs hv with hended | ⟨result, ho, hk, ht, hcursor, hscope, hmuted⟩
  · exact Or.inl hended
  · exact Or.inr ⟨result, ho, hk, ⟨ht.inText, ht.kept⟩, hcursor, hscope, hmuted⟩

namespace Program

/-- Invokes a rule as `invoke` does, but notes only the rules that are run anew, or would be if one
more could be open. Results that are kept are given again without a note. -/
def invokeNew (program : Program) (host : Host σ α ε) (limit : Nat) : Nat → RuleId → Matcher σ α ε
  | 0, id => { program with traced := false }.enter id fun rule s =>
    (.aborted (.nestingLimit limit s.cursor.offset),
      s.trace { program with traced := true } .enter rule s.cursor s.cursor)
  | depth + 1, id => { program with traced := false }.enter id fun rule s =>
    { program with traced := true }.evaluate host (program.invokeNew host limit depth) id rule
      (s.trace { program with traced := true } .enter rule s.cursor s.cursor)

/-- Matches the input from a rule as `runFrom` does, but notes only the rules that are run anew. -/
def runNew (program : Program) (host : Host σ α ε) (maxDepth : Nat) (start : RuleId) :
    Matcher σ α ε :=
  fun s =>
    match program.runInitializer host s with
    | (.matched (), s') => program.invokeNew host maxDepth maxDepth start s'
    | (.failed, s') => (.failed, s')
    | (.aborted e, s') => (.aborted e, s')

/-- The rules that are run anew in a parse, as they are entered and left. -/
def newCalls (program : Program) (host : Host σ α ε) (memory : σ) (input : String)
    (how : ParseOptions) : List TraceEvent :=
  match program.findStart how.startRule with
  | .error _ => []
  | .ok start => (program.runNew host how.maxDepth start (.initial input memory)).2.events.reverse

variable (program : Program) (host : Host σ α ε) (limit : Nat)

/-- Untraced, what is kept is given again without a note. -/
theorem enter_untraced {id : RuleId} {rule : CompiledRule} (hr : program.rules[id]? = some rule)
    (body : CompiledRule → Matcher σ α ε) (s : State σ α) :
    { program with traced := false }.enter id body s = match s.memoized? program id with
      | some result => (Outcome.ofOption result.value, { s with cursor := result.stop })
      | none => body rule s := by
  have hquiet : s.memoized? { program with traced := false } id = s.memoized? program id := rfl
  have htrace : s.trace { program with traced := false } .enter rule s.cursor s.cursor = s := rfl
  simp only [enter, hr, htrace, hquiet]
  cases s.memoized? program id with
  | none => rfl
  | some result =>
    obtain ⟨value, stop⟩ := result
    cases value <;> rfl

/-- What is kept is given again, however many rules may be open. -/
theorem invokeNew_hit {id : RuleId} {rule : CompiledRule} (hr : program.rules[id]? = some rule)
    {s : State σ α} {result : RuleResult α} (hm : s.memoized? program id = some result)
    (depth : Nat) : program.invokeNew host limit depth id s =
      (Outcome.ofOption result.value, { s with cursor := result.stop }) := by
  cases depth with
  | zero => rw [invokeNew, enter_untraced program hr, hm]
  | succ depth => rw [invokeNew, enter_untraced program hr, hm]

/-- What an invocation comes to: nothing happens if there is no such rule, what is kept is given
again, no more rules may be open, or the body is run and the result kept. The last two are noted. -/
theorem invokeNew_cases {id : RuleId} {depth : Nat} {s s' : State σ α} {o : Outcome ε (Value α)}
    (h : program.invokeNew host limit depth id s = (o, s')) :
    (program.rules[id]? = none ∧ o = .failed ∧ s' = s) ∨
    (∃ result, s.memoized? program id = some result ∧ o = Outcome.ofOption result.value ∧
      s' = { s with cursor := result.stop }) ∨
    (∃ rule, program.rules[id]? = some rule ∧ s.memoized? program id = none ∧ depth = 0 ∧
      o = .aborted (.nestingLimit limit s.cursor.offset) ∧
      s' = { s with events := .entering rule.name s.cursor :: s.events }) ∨
    ∃ rule depth' o' t, program.rules[id]? = some rule ∧ s.memoized? program id = none ∧
      depth = depth' + 1 ∧ rule.node.run host (program.invokeNew host limit depth')
        { s with scope := [], events := .entering rule.name s.cursor :: s.events } = (o', t) ∧
      ((∃ e, o' = .aborted e ∧ o = .aborted e ∧ s' = { t with scope := s.scope }) ∨
        ∃ result, o' = Outcome.ofOption result ∧ o = Outcome.ofOption result ∧
          s' = { ({ t with scope := s.scope } : State σ α).remember program id s.cursor result with
            events := .leaving rule.name s.cursor result t.cursor :: t.events }) := by
  cases hr : program.rules[id]? with
  | none =>
    refine Or.inl ⟨rfl, ?_⟩
    cases depth <;> simp only [invokeNew, enter, hr] at h <;> cases h <;> exact ⟨rfl, rfl⟩
  | some rule =>
    refine Or.inr ?_
    cases hm : s.memoized? program id with
    | some result =>
      rw [invokeNew_hit program host limit hr hm] at h
      cases h
      exact Or.inl ⟨result, rfl, rfl, rfl⟩
    | none =>
      refine Or.inr ?_
      cases depth with
      | zero =>
        rw [invokeNew, enter_untraced program hr, hm] at h
        cases h
        exact Or.inl ⟨rule, rfl, rfl, rfl, rfl, rfl⟩
      | succ depth =>
        rw [invokeNew, enter_untraced program hr, hm] at h
        dsimp only at h
        rcases hb : rule.node.run host (program.invokeNew host limit depth)
          { s with scope := [], events := .entering rule.name s.cursor :: s.events } with ⟨o', t⟩
        refine Or.inr ⟨rule, depth, o', t, rfl, rfl, rfl, hb, ?_⟩
        rw [trace_traced rfl] at h
        obtain ⟨result, rfl⟩ | ⟨e, rfl⟩ := o'.ended_or_aborted
        · rw [evaluate_ended { program with traced := true } host _ id rule hb, leave_traced rfl,
            State.remember_eq] at h
          cases h
          refine Or.inr ⟨result, rfl, rfl, ?_⟩
          rw [State.remember_eq]
        · rw [evaluate_aborted { program with traced := true } host _ id rule hb] at h
          cases h
          exact Or.inl ⟨e, rfl, rfl, rfl⟩

/-- Nothing but the events depends on which rules are noted. -/
theorem invokeNew_sameButEvents (depth : Nat) (id : RuleId) :
    SameButEvents (program.invoke host limit depth id) (program.invokeNew host limit depth id) := by
  induction depth generalizing id with
  | zero =>
    refine enter_sameButEvents program false id fun rule s s' o events h => ?_
    cases h
    exact ⟨_, rfl⟩
  | succ depth ih =>
    refine enter_sameButEvents program false id fun rule s s' o events h => ?_
    exact evaluate_sameButEvents program host true ih id rule s s' o _ h

theorem invokeNew_gives {rule : RuleId → Bool}
    (hk : ∀ id found, program.rules[id]? = some found → rule id = true →
      found.node.consumes rule = true) (depth : Nat) (id : RuleId) :
    Gives text (RuleResult.Lawful rule) id (program.invokeNew host limit depth id) :=
  (invokeNew_sameButEvents program host limit depth id).gives
    (invoke_gives program host limit hk depth id)

theorem invokeNew_restores (depth : Nat) (id : RuleId) :
    Restores text (RuleResult.Lawful fun _ => false) (program.invokeNew host limit depth id) :=
  restores_of_gives (invokeNew_gives program host limit
    (fun _ _ _ h => absurd h Bool.false_ne_true) depth id)

theorem runNew_sameButEvents (maxDepth : Nat) (start : RuleId) :
    SameButEvents (program.runFrom host maxDepth start) (program.runNew host maxDepth start) := by
  intro s s' o events h
  rcases he : program.runInitializer host s with ⟨o₁, t⟩
  obtain ⟨events', he'⟩ := runInitializer_sameButEvents program host program.traced s t o₁ events he
  unfold runFrom at h
  unfold runNew
  rw [he] at h
  rw [he']
  cases o₁ with
  | matched result =>
    exact invokeNew_sameButEvents program host maxDepth maxDepth start t s' o events' h
  | failed => cases h; exact ⟨events', rfl⟩
  | aborted e => cases h; exact ⟨events', rfl⟩

end Program
end Peg
