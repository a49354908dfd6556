import Peg.Match.Run

/-! The equations by which a run is followed step by step, so that later proofs need not open the
definitions: what each way of putting matchers together does, once it is known what its parts do. -/
namespace Peg

variable {σ α ε β γ : Type}

def Outcome.map (f : β → γ) : Outcome ε β → Outcome ε γ
  | matched result => .matched (f result)
  | failed => .failed
  | aborted e => .aborted e

theorem Outcome.map_eq_failed {f : β → γ} {o : Outcome ε β} : o.map f = .failed ↔ o = .failed := by
  cases o <;> simp only [map, reduceCtorEq]

theorem Outcome.map_eq_aborted {f : β → γ} {o : Outcome ε β} {e : ParseError ε} :
    o.map f = .aborted e ↔ o = .aborted e := by
  cases o <;> simp only [map, reduceCtorEq, aborted.injEq]

theorem Outcome.map_eq_matched {f : β → γ} {o : Outcome ε β} {result : γ} :
    o.map f = .matched result ↔ ∃ inner, o = .matched inner ∧ f inner = result := by
  cases o <;> simp only [map, reduceCtorEq, matched.injEq, false_and, exists_false, exists_eq_left']

def Value.cons (first : Value α) : Value α → Value α
  | .list values => .list (first :: values)
  | value => value

def Outcome.ofOption : Option β → Outcome ε β
  | some result => .matched result
  | none => .failed

theorem Outcome.ofOption_injective : Function.Injective (ofOption : Option β → Outcome ε β) := by
  intro result result' h
  cases result <;> cases result' <;> cases h <;> rfl

theorem Outcome.ofOption_ne_aborted (result : Option β) (e : ParseError ε) :
    ofOption result ≠ .aborted e := by
  cases result <;> nofun

/-- A matcher comes to a value or to none, unless the parse ends in it. -/
theorem Outcome.ended_or_aborted (o : Outcome ε β) :
    (∃ result, o = ofOption result) ∨ ∃ e, o = .aborted e := by
  cases o with
  | matched result => exact Or.inl ⟨some result, rfl⟩
  | failed => exact Or.inl ⟨none, rfl⟩
  | aborted e => exact Or.inr ⟨e, rfl⟩

theorem memoOrder_eq_iff {k k' : RuleId × Nat} : memoOrder k k' = .eq ↔ k = k' := by
  rw [memoOrder, compareLex_eq_eq, compareOn, compareOn, Std.LawfulEqCmp.compare_eq_iff_eq,
    Std.LawfulEqCmp.compare_eq_iff_eq, Prod.ext_iff]

instance : Std.TransCmp memoOrder := inferInstanceAs (Std.TransCmp (compareLex _ _))

namespace Memo

theorem find?_empty (id : RuleId) (offset : Nat) : (empty : Memo α).find? id offset = none :=
  Std.TreeMap.getElem?_emptyc

theorem find?_insert (memo : Memo α) (id id' : RuleId) (offset offset' : Nat)
    (result : RuleResult α) : (memo.insert id offset result).find? id' offset' =
      if (id, offset) = (id', offset') then some result else memo.find? id' offset' := by
  simp only [find?, insert, Std.TreeMap.getElem?_insert, memoOrder_eq_iff]

end Memo

namespace State

theorem recordFailure_eq (expectation : ExpectationId) (s : State σ α) :
    ∃ furthest expected, s.recordFailure expectation =
      { s with furthest := furthest, expected := expected } := by
  unfold recordFailure
  split
  · exact ⟨_, _, rfl⟩
  · split
    · exact ⟨_, _, rfl⟩
    · exact ⟨_, _, rfl⟩

theorem trace_eq (program : Program) (kind : TraceKind) (rule : CompiledRule) (start stop : Cursor)
    (s : State σ α) :
    ∃ events, s.trace program kind rule start stop = { s with events := events } := by
  unfold trace
  split
  · exact ⟨_, rfl⟩
  · exact ⟨_, rfl⟩

theorem leave_eq (program : Program) (rule : CompiledRule) (start : Cursor)
    (result : Option (Value α)) (s : State σ α) :
    ∃ events, (s.leave program rule start result : Outcome ε (Value α) × State σ α) =
      (Outcome.ofOption result, { s with events := events }) := by
  cases result with
  | some value =>
    obtain ⟨events, he⟩ := trace_eq program .matched rule start s.cursor s
    exact ⟨events, congrArg (Prod.mk _) he⟩
  | none =>
    obtain ⟨events, he⟩ := trace_eq program .failed rule start start s
    exact ⟨events, congrArg (Prod.mk _) he⟩

theorem remember_eq (program : Program) (id : RuleId) (start : Cursor) (result : Option (Value α))
    (s : State σ α) : s.remember program id start result = { s with
      memo := if program.cached then s.memo.insert id start.offset ⟨result, s.cursor⟩
        else s.memo } := by
  unfold remember
  split <;> rfl

theorem memoized?_eq_some {program : Program} {id : RuleId} {s : State σ α}
    {result : RuleResult α} : s.memoized? program id = some result ↔
      program.cached = true ∧ s.memo.find? id s.cursor.offset = some result := by
  unfold memoized?
  split
  · rename_i hc
    exact ⟨fun h => ⟨hc, h⟩, And.right⟩
  · rename_i hc
    exact ⟨nofun, fun h => absurd h.1 hc⟩

end State

namespace Matcher

theorem isolate_eq {m : Matcher σ α ε} {s s' : State σ α} {o : Outcome ε (Value α)}
    (h : m s = (o, s')) : isolate m s = (o, { s' with scope := s.scope }) := by
  simp only [isolate, h]

theorem mute_eq {m : Matcher σ α ε} {s s' : State σ α} {o : Outcome ε (Value α)}
    (h : m { s with muted := true } = (o, s')) : mute m s = (o, { s' with muted := s.muted }) := by
  simp only [mute, h]

theorem mapValue_isolate_eq (f : String → Value α → Value α) {m : Matcher σ α ε} {s s' : State σ α}
    {o : Outcome ε (Value α)} : m s = (o, s') →
    mapValue f (isolate m) s = (o.map (f (s.cursor.textTo s'.cursor)),
      { s' with scope := s.scope }) := by
  intro h
  simp only [mapValue, isolate_eq h]
  cases o <;> rfl

theorem labeled_eq (label : String) {m : Matcher σ α ε} {s s' : State σ α}
    {o : Outcome ε (Value α)} : m s = (o, s') → labeled label m s = (o, { s' with
      scope := match o with
        | .matched value => (label, value) :: s.scope
        | _ => s.scope }) := by
  intro h
  simp only [labeled, isolate_eq h]
  cases o <;> rfl

theorem named_eq (expectation : ExpectationId) {m : Matcher σ α ε} {s s' : State σ α}
    {o : Outcome ε (Value α)} : m { s with muted := true } = (o, s') →
    named expectation m s = match o with
      | .failed => fail expectation { s' with scope := s.scope, muted := s.muted }
      | o => (o, { s' with scope := s.scope, muted := s.muted }) := by
  intro h
  simp only [named, mute_eq (isolate_eq h)]
  cases o <;> rfl

theorem optional_eq {m : Matcher σ α ε} {s s' : State σ α} {o : Outcome ε (Value α)} :
    m s = (o, s') → optional m s = (match o with
      | .failed => .matched .null
      | o => o, { s' with scope := s.scope }) := by
  intro h
  simp only [optional, isolate_eq h]
  cases o <;> rfl

theorem lookahead_eq (negated : Bool) {m : Matcher σ α ε} {s s' : State σ α}
    {o : Outcome ε (Value α)} :
    m { s with muted := true } = (o, s') → lookahead negated m s = (match o with
      | .matched _ => if negated then .failed else .matched .null
      | .failed => if negated then .matched .null else .failed
      | .aborted e => .aborted e,
        { s' with cursor := s.cursor, scope := s.scope, muted := s.muted }) := by
  intro h
  simp only [lookahead, mute_eq (isolate_eq h)]
  cases o <;> rfl

/-- The rounds of a repetition, and what they come to. A round that consumes something is followed
by another one, if one more is allowed. -/
inductive Rounds (m : Matcher σ α ε) :
    List Char → State σ α → Outcome ε (List (Value α)) → State σ α → Prop where
  | failed {bound : List Char} {s t : State σ α} (h : m s = (.failed, t)) :
    Rounds m bound s (.matched []) { t with scope := s.scope }
  | aborted {bound : List Char} {s t : State σ α} {e : ParseError ε} (h : m s = (.aborted e, t)) :
    Rounds m bound s (.aborted e) { t with scope := s.scope }
  | last {bound : List Char} {s t : State σ α} {value : Value α} (h : m s = (.matched value, t))
      (hend : t.cursor.offset = s.cursor.offset ∨ bound = []) :
    Rounds m bound s (.matched [value]) { t with scope := s.scope }
  | again {c : Char} {bound : List Char} {s t s' : State σ α} {value : Value α}
      {o : Outcome ε (List (Value α))} (h : m s = (.matched value, t))
      (hmoved : t.cursor.offset ≠ s.cursor.offset)
      (hrest : Rounds m bound { t with scope := s.scope } o s') :
    Rounds m (c :: bound) s (o.map (value :: ·)) s'

theorem Rounds.repeatWithin_eq {m : Matcher σ α ε} {bound : List Char} {s s' : State σ α}
    {o : Outcome ε (List (Value α))} (h : Rounds m bound s o s') :
    repeatWithin m bound s = (o, s') := by
  induction h with
  | failed h => rw [repeatWithin, isolate_eq h]
  | aborted h => rw [repeatWithin, isolate_eq h]
  | last h hend =>
    rw [repeatWithin, isolate_eq h]
    rcases hend with ho | rfl
    · exact if_pos ho
    · exact ite_self _
  | @again c bound s t s' value o h hmoved _ ih =>
    rw [repeatWithin, isolate_eq h]
    dsimp only
    rw [if_neg hmoved, ih]
    cases o <;> rfl

theorem exists_rounds (m : Matcher σ α ε) (bound : List Char) (s : State σ α) :
    ∃ o s', Rounds m bound s o s' := by
  induction hn : bound.length using Nat.strongRecOn generalizing bound s with
  | _ n ih =>
    rcases h : m s with ⟨o, t⟩
    cases o with
    | failed => exact ⟨_, _, .failed h⟩
    | aborted e => exact ⟨_, _, .aborted h⟩
    | matched value =>
      by_cases ho : t.cursor.offset = s.cursor.offset
      · exact ⟨_, _, .last h (Or.inl ho)⟩
      · cases bound with
        | nil => exact ⟨_, _, .last h (Or.inr rfl)⟩
        | cons c bound =>
          obtain ⟨o, s', hrest⟩ :=
            ih _ (hn ▸ Nat.lt_succ_self _) bound { t with scope := s.scope } rfl
          exact ⟨_, _, .again h ho hrest⟩

theorem Rounds.ne_failed {m : Matcher σ α ε} {bound : List Char} {s s' : State σ α}
    {o : Outcome ε (List (Value α))} (h : Rounds m bound s o s') : o ≠ .failed := by
  induction h with
  | failed | aborted | last => nofun
  | again h hmoved hrest ih => exact fun ho => ih (Outcome.map_eq_failed.mp ho)

theorem repeated_eq (needsOne : Bool) {m : Matcher σ α ε} {s s' : State σ α}
    {o : Outcome ε (List (Value α))} : Rounds m s.cursor.rest s o s' →
    repeated needsOne m s = (match o with
      | .matched values => if needsOne && values.isEmpty then .failed else .matched (.list values)
      | .failed => .failed
      | .aborted e => .aborted e, s') := by
  intro h
  simp only [repeated, h.repeatWithin_eq]
  cases o with
  | matched values => exact (apply_ite (·, s') _ _ _).symm
  | failed => rfl
  | aborted e => rfl

/-- A repetition leaves behind what its rounds do. -/
theorem repeated_snd (needsOne : Bool) (m : Matcher σ α ε) (s : State σ α) :
    (repeated needsOne m s).2 = (repeatWithin m s.cursor.rest s).2 := by
  obtain ⟨o, s', h⟩ := exists_rounds m s.cursor.rest s
  rw [repeated_eq needsOne h, h.repeatWithin_eq]

/-- What an action sees is known once its expression has matched. -/
theorem action_eq (host : Host σ α ε) (code : String) {m : Matcher σ α ε} {s s' : State σ α}
    {o : Outcome ε (Value α)} : m s = (o, s') →
    action host code m s = match o with
      | .matched value =>
        let context := ⟨s.cursor, s'.cursor, s'.scope.reverse, some value⟩
        (match (host.action code context s'.host).1 with
          | .ok result => .matched result
          | .error e => .aborted (e.toParseError context),
          { s' with
            scope := s.scope
            calls := ⟨.action, code, context⟩ :: s'.calls
            host := (host.action code context s'.host).2 })
      | o => (o, { s' with scope := s.scope }) := by
  intro h
  simp only [action, isolate, h]
  cases o with
  | matched value =>
    rcases ha : host.action code ⟨s.cursor, s'.cursor, s'.scope.reverse, some value⟩ s'.host with
      ⟨answer, memory⟩
    cases answer <;> simp only [callHost, ha]
  | failed => rfl
  | aborted e => rfl

/-- The host does not touch the labels. -/
theorem callHost_scope (kind : CallKind) (code : String) (start : Cursor) (value : Option (Value α))
    (run : String → CodeContext α → σ → Except (CodeError ε) β × σ) (s : State σ α) :
    (callHost kind code start value run s).2.scope = s.scope := by
  rcases ha : run code ⟨start, s.cursor, s.scope.reverse, value⟩ s.host with ⟨answer, memory⟩
  cases answer <;> simp only [callHost, ha]

theorem predicate_eq (host : Host σ α ε) (negated : Bool) (code : String) (s : State σ α) :
    predicate host negated code s =
      let context := ⟨s.cursor, s.cursor, s.scope.reverse, none⟩
      (match (host.predicate code context s.host).1 with
        | .ok answer => if answer != negated then .matched .null else .failed
        | .error e => .aborted (e.toParseError context),
        { s with
          calls := ⟨.predicate, code, context⟩ :: s.calls
          host := (host.predicate code context s.host).2 }) := by
  rcases ha : host.predicate code ⟨s.cursor, s.cursor, s.scope.reverse, none⟩ s.host with
    ⟨answer, memory⟩
  cases answer <;> simp only [predicate, callHost, ha]

end Matcher

namespace Node

theorem run_sequence_nil (host : Host σ α ε) (call : RuleId → Matcher σ α ε) (s : State σ α) :
    (Node.sequence []).run host call s = (.matched (.list []), s) := by
  simp only [run, runSequence]

/-- The elements behind the first one form a sequence of their own. -/
theorem run_sequence_cons (host : Host σ α ε) (call : RuleId → Matcher σ α ε) (node : Node)
    (nodes : List Node) {s s₁ : State σ α} {o : Outcome ε (Value α)} :
    node.run host call s = (o, s₁) →
    (Node.sequence (node :: nodes)).run host call s = match o with
      | .matched value =>
        match (Node.sequence nodes).run host call s₁ with
        | (.failed, s₂) => (.failed, { s₂ with cursor := s.cursor, scope := s.scope })
        | (o, s₂) => (o.map value.cons, s₂)
      | .failed => (.failed, { s₁ with cursor := s.cursor, scope := s.scope })
      | .aborted e => (.aborted e, s₁) := by
  intro h
  simp only [run, runSequence, h]
  cases o with
  | matched value =>
    dsimp only
    rcases runSequence host call nodes s₁ with ⟨o, s₂⟩
    cases o <;> rfl
  | failed => rfl
  | aborted e => rfl

/-- Nodes match one behind the other where the sequence of them does. -/
theorem run_sequence_eq_matched {host : Host σ α ε} {call : RuleId → Matcher σ α ε}
    {nodes : List Node} {s s' : State σ α} {values : List (Value α)} :
    (Node.sequence nodes).run host call s = (.matched (.list values), s') ↔
      runSequence host call nodes s = (.matched values, s') := by
  rw [run]
  dsimp only
  rcases runSequence host call nodes s with ⟨o, t⟩
  cases o <;> simp

theorem run_choice_nil (host : Host σ α ε) (call : RuleId → Matcher σ α ε) (s : State σ α) :
    (Node.choice []).run host call s = (.failed, s) := by
  simp only [run, runChoice]

/-- The alternatives behind the first one form a choice of their own. -/
theorem run_choice_cons (host : Host σ α ε) (call : RuleId → Matcher σ α ε) (node : Node)
    (nodes : List Node) {s s₁ : State σ α} {o : Outcome ε (Value α)} :
    node.run host call s = (o, s₁) →
    (Node.choice (node :: nodes)).run host call s = match o with
      | .failed => (Node.choice nodes).run host call { s₁ with scope := s.scope }
      | o => (o, { s₁ with scope := s.scope }) := by
  intro h
  simp only [run, runChoice, Matcher.isolate_eq h]
  cases o <;> rfl

end Node

namespace Program

variable (program : Program) (host : Host σ α ε) (limit : Nat)

theorem invoke_unknown {id : RuleId} (hr : program.rules[id]? = none) (depth : Nat)
    (s : State σ α) : program.invoke host limit depth id s = (.failed, s) := by
  cases depth <;> simp only [invoke, enter, hr]

/-- Of a rule that is entered, what is kept is given again. -/
theorem enter_hit {id : RuleId} {rule : CompiledRule} (hr : program.rules[id]? = some rule)
    {s : State σ α} {result : RuleResult α} (hm : s.memoized? program id = some result)
    (body : CompiledRule → Matcher σ α ε) : program.enter id body s =
      ({ s.trace program .enter rule s.cursor s.cursor with cursor := result.stop } :
        State σ α).leave program rule s.cursor result.value := by
  obtain ⟨events, he⟩ := State.trace_eq program .enter rule s.cursor s.cursor s
  have hm' :
      (s.trace program .enter rule s.cursor s.cursor).memoized? program id = some result := by
    rw [he]
    exact hm
  have hc : (s.trace program .enter rule s.cursor s.cursor).cursor = s.cursor := by rw [he]
  simp only [enter, hr, hm', hc]

/-- A rule of which nothing is kept is left to what is to be done then. -/
theorem enter_miss {id : RuleId} {rule : CompiledRule} (hr : program.rules[id]? = some rule)
    {s : State σ α} (hm : s.memoized? program id = none) (body : CompiledRule → Matcher σ α ε) :
    program.enter id body s = body rule (s.trace program .enter rule s.cursor s.cursor) := by
  obtain ⟨events, he⟩ := State.trace_eq program .enter rule s.cursor s.cursor s
  have hm' : (s.trace program .enter rule s.cursor s.cursor).memoized? program id = none := by
    rw [he]
    exact hm
  simp only [enter, hr, hm']

/-- A result that is kept is given again, at any depth. -/
theorem invoke_hit {id : RuleId} {rule : CompiledRule} (hr : program.rules[id]? = some rule)
    {s : State σ α} {result : RuleResult α} (hm : s.memoized? program id = some result)
    (depth : Nat) :
    program.invoke host limit depth id s =
      ({ s.trace program .enter rule s.cursor s.cursor with cursor := result.stop } :
        State σ α).leave program rule s.cursor result.value := by
  cases depth with
  | zero => exact enter_hit program hr hm _
  | succ depth => exact enter_hit program hr hm _

theorem invoke_zero {id : RuleId} {rule : CompiledRule} (hr : program.rules[id]? = some rule)
    {s : State σ α} (hm : s.memoized? program id = none) :
    program.invoke host limit 0 id s = (.aborted (.nestingLimit limit s.cursor.offset),
      s.trace program .enter rule s.cursor s.cursor) := by
  obtain ⟨events, he⟩ := State.trace_eq program .enter rule s.cursor s.cursor s
  have hc : (s.trace program .enter rule s.cursor s.cursor).cursor = s.cursor := by rw [he]
  rw [invoke, enter_miss program hr hm, hc]

/-- A rule of which nothing is kept is evaluated. -/
theorem invoke_miss {id : RuleId} {rule : CompiledRule} (hr : program.rules[id]? = some rule)
    {s : State σ α} (hm : s.memoized? program id = none) (depth : Nat) :
    program.invoke host limit (depth + 1) id s =
      program.evaluate host (program.invoke host limit depth) id rule
        (s.trace program .enter rule s.cursor s.cursor) :=
  enter_miss program hr hm _

/-- What the body of a rule comes to is kept and given to the caller. -/
theorem evaluate_ended (call : RuleId → Matcher σ α ε) (id : RuleId) (rule : CompiledRule)
    {s t : State σ α} {result : Option (Value α)}
    (hb : rule.node.run host call { s with scope := [] } = (Outcome.ofOption result, t)) :
    program.evaluate host call id rule s =
      (({ t with scope := s.scope } : State σ α).remember program id s.cursor result).leave program
        rule s.cursor result := by
  cases result with
  | some value => simp only [evaluate, hb, Outcome.ofOption]
  | none => simp only [evaluate, hb, Outcome.ofOption]

/-- A rule is not left in whose body the parse ends. -/
theorem evaluate_aborted (call : RuleId → Matcher σ α ε) (id : RuleId) (rule : CompiledRule)
    {s t : State σ α} {e : ParseError ε}
    (hb : rule.node.run host call { s with scope := [] } = (.aborted e, t)) :
    program.evaluate host call id rule s = (.aborted e, { t with scope := s.scope }) := by
  simp only [evaluate, hb]

theorem invoke_ended {id : RuleId} {rule : CompiledRule} (hr : program.rules[id]? = some rule)
    {s t : State σ α} (hm : s.memoized? program id = none) {depth : Nat}
    {result : Option (Value α)} (hb : rule.node.run host (program.invoke host limit depth)
      { s.trace program .enter rule s.cursor s.cursor with scope := [] } =
        (Outcome.ofOption result, t)) :
    program.invoke host limit (depth + 1) id s =
      (({ t with scope := s.scope } : State σ α).remember program id s.cursor result).leave program
        rule s.cursor result := by
  obtain ⟨events, he⟩ := State.trace_eq program .enter rule s.cursor s.cursor s
  rw [he] at hb
  rw [invoke_miss program host limit hr hm, he]
  exact evaluate_ended program host _ id rule hb

theorem invoke_aborted {id : RuleId} {rule : CompiledRule} (hr : program.rules[id]? = some rule)
    {s t : State σ α} (hm : s.memoized? program id = none) {depth : Nat} {e : ParseError ε}
    (hb : rule.node.run host (program.invoke host limit depth)
      { s.trace program .enter rule s.cursor s.cursor with scope := [] } = (.aborted e, t)) :
    program.invoke host limit (depth + 1) id s = (.aborted e, { t with scope := s.scope }) := by
  obtain ⟨events, he⟩ := State.trace_eq program .enter rule s.cursor s.cursor s
  rw [he] at hb
  rw [invoke_miss program host limit hr hm, he]
  exact evaluate_aborted program host _ id rule hb

/-- What an invocation comes to: nothing happens if there is no such rule, what is kept is given
again, no more rules may be open, or the body is run and the result kept. -/
theorem invoke_cases {id : RuleId} {depth : Nat} {s s' : State σ α} {o : Outcome ε (Value α)}
    (h : program.invoke host limit depth id s = (o, s')) :
    (program.rules[id]? = none ∧ o = .failed ∧ s' = s) ∨
    (∃ rule result events, program.rules[id]? = some rule ∧
      s.memoized? program id = some result ∧ o = Outcome.ofOption result.value ∧
      s' = { s with cursor := result.stop, events := events }) ∨
    (∃ rule, program.rules[id]? = some rule ∧ s.memoized? program id = none ∧ depth = 0 ∧
      o = .aborted (.nestingLimit limit s.cursor.offset) ∧
      s' = s.trace program .enter rule s.cursor s.cursor) ∨
    ∃ rule depth' o' t events, program.rules[id]? = some rule ∧ s.memoized? program id = none ∧
      depth = depth' + 1 ∧ rule.node.run host (program.invoke host limit depth')
        { s with scope := [], events := events } = (o', t) ∧
      ((∃ e, o' = .aborted e ∧ o = .aborted e ∧ s' = { t with scope := s.scope }) ∨
        ∃ result events', o' = Outcome.ofOption result ∧ o = Outcome.ofOption result ∧
          s' = { ({ t with scope := s.scope } : State σ α).remember program id s.cursor result with
            events := events' }) := by
  cases hr : program.rules[id]? with
  | none =>
    rw [invoke_unknown program host limit hr] at h
    cases h
    exact Or.inl ⟨rfl, rfl, rfl⟩
  | some rule =>
    refine Or.inr ?_
    cases hm : s.memoized? program id with
    | some result =>
      rw [invoke_hit program host limit hr hm] at h
      obtain ⟨events, he⟩ := State.trace_eq program .enter rule s.cursor s.cursor s
      obtain ⟨events', he'⟩ := State.leave_eq program rule s.cursor result.value
        ({ s.trace program .enter rule s.cursor s.cursor with cursor := result.stop } : State σ α)
      rw [he', he] at h
      cases h
      exact Or.inl ⟨rule, result, events', rfl, rfl, rfl, rfl⟩
    | none =>
      refine Or.inr ?_
      cases depth with
      | zero =>
        rw [invoke_zero program host limit hr hm] at h
        cases h
        exact Or.inl ⟨rule, rfl, rfl, rfl, rfl, rfl⟩
      | succ depth =>
        rcases hb : rule.node.run host (program.invoke host limit depth)
          { s.trace program .enter rule s.cursor s.cursor with scope := [] } with ⟨o', t⟩
        obtain ⟨events, he⟩ := State.trace_eq program .enter rule s.cursor s.cursor s
        have hbody : rule.node.run host (program.invoke host limit depth)
            { s with scope := [], events := events } = (o', t) := by
          rw [← hb, he]
        refine Or.inr ⟨rule, depth, o', t, events, rfl, rfl, rfl, hbody, ?_⟩
        obtain ⟨result, rfl⟩ | ⟨e, rfl⟩ := o'.ended_or_aborted
        · rw [invoke_ended program host limit hr hm hb] at h
          obtain ⟨events', hl⟩ := State.leave_eq program rule s.cursor result
            (({ t with scope := s.scope } : State σ α).remember program id s.cursor result)
          exact Or.inr ⟨result, events', rfl, Prod.mk.inj (h.symm.trans hl)⟩
        · rw [invoke_aborted program host limit hr hm hb] at h
          cases h
          exact Or.inl ⟨e, rfl, rfl, rfl⟩

/-- What a rule comes to is kept. -/
theorem find?_of_invoke (hc : program.cached = true) {depth : Nat} {id : RuleId}
    {found : CompiledRule} (hr : program.rules[id]? = some found) {s s' : State σ α}
    {result : Option (Value α)}
    (h : program.invoke host limit depth id s = (Outcome.ofOption result, s')) :
    s'.memo.find? id s.cursor.offset = some ⟨result, s'.cursor⟩ := by
  rcases invoke_cases program host limit h with ⟨hr', -, -⟩ |
    ⟨found', result', events, -, hm, ho, rfl⟩ | ⟨found', -, -, -, ho, -⟩ |
    ⟨found', depth', o', t, events, -, -, -, -, hend⟩
  · cases hr.symm.trans hr'
  · cases Outcome.ofOption_injective ho
    exact (State.memoized?_eq_some.mp hm).2
  · exact absurd ho (Outcome.ofOption_ne_aborted result _)
  · rcases hend with ⟨e, -, ho, -⟩ | ⟨result', events', -, ho, rfl⟩
    · exact absurd ho (Outcome.ofOption_ne_aborted result e)
    · cases Outcome.ofOption_injective ho
      rw [State.remember_eq, hc]
      dsimp only
      rw [if_pos rfl, Memo.find?_insert, if_pos rfl]

section Whole

variable {program : Program} {host : Host σ α ε} {input : String}

theorem runFrom_plain (hi : program.initializer = none) (maxDepth : Nat) (start : RuleId)
    (memory : σ) : program.runFrom host maxDepth start (.initial input memory) =
      program.invoke host maxDepth maxDepth start (.initial input memory) := by
  simp only [runFrom, runInitializer, hi]

theorem runFrom_prepared {code : String} (hi : program.initializer = some code) {memory memory' : σ}
    (hp : host.prepare code ⟨.ofText input, .ofText input, [], none⟩ memory = (.ok (), memory'))
    (maxDepth : Nat) (start : RuleId) :
    program.runFrom host maxDepth start (.initial input memory) =
      program.invoke host maxDepth maxDepth start { State.initial input memory' with
        calls := [⟨.initializer, code, ⟨.ofText input, .ofText input, [], none⟩⟩] } := by
  simp only [runFrom, runInitializer, hi, Matcher.callHost, State.initial, List.reverse_nil, hp]

theorem runFrom_refused {code : String} (hi : program.initializer = some code) {memory memory' : σ}
    {e : CodeError ε}
    (hp : host.prepare code ⟨.ofText input, .ofText input, [], none⟩ memory = (.error e, memory'))
    (maxDepth : Nat) (start : RuleId) :
    program.runFrom host maxDepth start (.initial input memory) =
      (.aborted (e.toParseError (⟨.ofText input, .ofText input, [], none⟩ : CodeContext α)),
        { State.initial input memory' with
          calls := [⟨.initializer, code, ⟨.ofText input, .ofText input, [], none⟩⟩] }) := by
  simp only [runFrom, runInitializer, hi, Matcher.callHost, State.initial, List.reverse_nil, hp]

/-- The initializer lets the parse begin or ends it, and only calls the host. -/
theorem runInitializer_cases (program : Program) (host : Host σ α ε) (input : String) (memory : σ) :
    (∃ memory' calls, program.runInitializer host (.initial input memory) =
      (.matched (), { State.initial input memory' with calls := calls })) ∨
    ∃ (e : CodeError ε) (context : CodeContext α) (memory' : σ) (calls : List (Call α)),
      program.runInitializer host (.initial input memory) =
        (.aborted (e.toParseError context),
          { State.initial input memory' with calls := calls }) := by
  cases hi : program.initializer with
  | none => exact Or.inl ⟨memory, [], by rw [runInitializer, hi]; rfl⟩
  | some code =>
    rcases hp : host.prepare code ⟨.ofText input, .ofText input, [], none⟩ memory with
      ⟨answer, memory'⟩
    simp only [runInitializer, hi, Matcher.callHost, State.initial, List.reverse_nil, hp]
    cases answer with
    | ok result => exact Or.inl ⟨memory', _, rfl⟩
    | error e => exact Or.inr ⟨e, _, memory', _, rfl⟩

/-- The start rule is invoked where the input begins, behind the initializer, unless the parse ends
in that. -/
theorem runFrom_cases {maxDepth : Nat} {start : RuleId} {memory : σ} {o : Outcome ε (Value α)}
    {s : State σ α} (h : program.runFrom host maxDepth start (.initial input memory) = (o, s)) :
    (∃ (e : CodeError ε) (context : CodeContext α), o = .aborted (e.toParseError context) ∧
      s.events = []) ∨
    ∃ memory' calls, program.invoke host maxDepth maxDepth start
      { State.initial input memory' with calls := calls } = (o, s) := by
  rcases runInitializer_cases program host input memory with ⟨memory', calls, hi⟩ |
    ⟨e, context, memory', calls, hi⟩
  · rw [runFrom, hi] at h
    exact Or.inr ⟨memory', calls, h⟩
  · rw [runFrom, hi] at h
    cases h
    exact Or.inl ⟨e, context, rfl, rfl⟩

theorem parse_eq {options : ParseOptions} {start : RuleId}
    (hs : program.findStart options.startRule = .ok start) {memory : σ} {o : Outcome ε (Value α)}
    {s : State σ α}
    (hr : program.runFrom host options.maxDepth start (.initial input memory) = (o, s)) :
    program.parse host memory input options =
      ⟨program.answer options.allowRest o s, s.events.reverse, s.calls.reverse, s.host⟩ := by
  simp only [parse, hs, hr]

/-- Only a parse ends at the limit of nested rules, and only if its run does. -/
theorem aborted_of_answer {allowRest : Bool} {o : Outcome ε (Value α)} {s : State σ α}
    {limit offset : Nat} (h : program.answer allowRest o s = .error (.nestingLimit limit offset)) :
    o = .aborted (.nestingLimit limit offset) := by
  cases o with
  | matched value =>
    unfold answer at h
    dsimp only at h
    split at h <;> cases h
  | failed => cases h
  | aborted e =>
    cases h
    rfl

end Whole

end Program
end Peg
