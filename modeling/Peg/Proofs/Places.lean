import Peg.Proofs.Steps

/-! Where a run comes by. The parts of a node are run in states that follow from the one in which
the node is run: elements behind those in front of them, alternatives where those in front of them
failed, what is repeated once more behind each of its matches, and rules where they are referred to.
Every call of the host, the one for the initializer apart, is made where a run comes by. -/
namespace Peg

variable {σ α ε : Type}

/-- The state in which the operator runs what is inside it, for the first time. -/
def Operator.around (operator : Operator) (s : State σ α) : State σ α :=
  match operator with
  | named _ | followedBy | notFollowedBy => { s with muted := true }
  | _ => s

namespace Node

/-- Where the first node is run in the first state, its part with the number is run in the second
state. -/
inductive Enters (host : Host σ α ε) (call : RuleId → Matcher σ α ε) :
    Node → State σ α → Nat → Node → State σ α → Prop
  | element {front node back values s s'}
      (before : runSequence host call front s = (.matched values, s')) :
      Enters host call (.sequence (front ++ node :: back)) s front.length node s'
  | alternative {front node back s s'} (before : runChoice host call front s = (.failed, s')) :
      Enters host call (.choice (front ++ node :: back)) s front.length node s'
  | inside {operator body s} :
      Enters host call (.wrapped operator body) s 0 body (operator.around s)
  /-- What matched and moved the cursor is repeated. -/
  | again {operator body s s' t value} (repeats : operator = .zeroOrMore ∨ operator = .oneOrMore)
      (entered : Enters host call (.wrapped operator body) s 0 body s')
      (matched : body.run host call s' = (.matched value, t))
      (moved : t.cursor.offset ≠ s'.cursor.offset) :
      Enters host call (.wrapped operator body) s 0 body { t with scope := s'.scope }

/-- Where the node is run in the state, it makes the call itself: a predicate where it stands, and
an action behind what it stands behind. -/
inductive Makes (host : Host σ α ε) (call : RuleId → Matcher σ α ε) : Node → State σ α → Call α →
    Prop
  | predicate {negated code s} : Makes host call (.predicate negated code) s
      ⟨.predicate, code, ⟨s.cursor, s.cursor, s.scope.reverse, none⟩⟩
  | action {code body s s' value} (matched : body.run host call s = (.matched value, s')) :
      Makes host call (.wrapped (.action code) body) s
        ⟨.action, code, ⟨s.cursor, s'.cursor, s'.scope.reverse, some value⟩⟩

end Node

/-- The state in which the body of a rule is run that is entered in the state. -/
def State.entering (program : Program) (rule : CompiledRule) (s : State σ α) : State σ α :=
  { s.trace program .enter rule s.cursor s.cursor with scope := [] }

namespace Program

/-- The run of the rule `start` from the state `first` comes by: it runs the node in the state,
where the path leads to the node in the rule of the number, and `depth` more rules may be open. -/
inductive Runs (program : Program) (host : Host σ α ε) (limit : Nat) (start : RuleId)
    (first : State σ α) : Nat → RuleId → List Nat → Node → State σ α → Prop
  | start {depth rule} (enough : limit = depth + 1) (found : program.rules[start]? = some rule)
      (new : first.memoized? program start = none) :
      Runs program host limit start first depth start [] rule.node (first.entering program rule)
  | part {depth id path node s i node' s'}
      (here : Runs program host limit start first depth id path node s)
      (entered : node.Enters host (program.invoke host limit depth) s i node' s') :
      Runs program host limit start first depth id (path ++ [i]) node' s'
  | call {depth id path called rule s}
      (here : Runs program host limit start first (depth + 1) id path (.ruleRef called) s)
      (found : program.rules[called]? = some rule) (new : s.memoized? program called = none) :
      Runs program host limit start first depth called [] rule.node (s.entering program rule)

/-- In the run of the rule `start` from the state `first`, the call is made by the node to which the
path leads in the rule of the number. -/
def MadeAt (program : Program) (host : Host σ α ε) (limit : Nat) (start : RuleId)
    (first : State σ α)
    (id : RuleId) (path : List Nat) (made : Call α) : Prop :=
  ∃ depth node s, program.Runs host limit start first depth id path node s ∧
    node.Makes host (program.invoke host limit depth) s made

/-- In the parse of the input, the call is made by the node to which the path leads in the rule of
the number. -/
def CalledAt (program : Program) (host : Host σ α ε) (memory : σ) (input : String)
    (options : ParseOptions) (id : RuleId) (path : List Nat) (made : Call α) : Prop :=
  ∃ start first, program.findStart options.startRule = .ok start ∧
    program.runInitializer host (.initial input memory) = (.matched (), first) ∧
    program.MadeAt host options.maxDepth start first id path made

end Program

def State.Adds (P : Call α → Prop) (s s' : State σ α) : Prop :=
  ∀ made ∈ s'.calls, made ∈ s.calls ∨ P made

namespace State

variable {P : Call α → Prop} {s s' t : State σ α}

theorem adds_of_calls (h : s'.calls = s.calls) : s.Adds P s' := fun _ hm => Or.inl (h ▸ hm)

theorem Adds.trans (h : s.Adds P t) (h' : t.Adds P s') : s.Adds P s' :=
  fun made hm => (h' made hm).elim (h made) Or.inr

/-- It does not matter what else differs between states. -/
theorem Adds.congr (h : s.Adds P t) {r : State σ α} (hr : r.calls = s.calls)
    (ht : s'.calls = t.calls) : r.Adds P s' := by
  intro made hm
  rw [ht] at hm
  rw [hr]
  exact h made hm

end State

namespace Matcher

variable {s : State σ α}

theorem calls_fail (expectation : ExpectationId) (s : State σ α) :
    (fail expectation s : Outcome ε (Value α) × State σ α).2.calls = s.calls := by
  obtain ⟨furthest, expected, he⟩ := State.recordFailure_eq expectation s
  rw [fail, he]

theorem calls_literal (matcher : LiteralMatcher) (expectation : ExpectationId) (s : State σ α) :
    (literal matcher expectation s : Outcome ε (Value α) × State σ α).2.calls = s.calls := by
  unfold literal
  split
  · rfl
  · exact calls_fail expectation s

theorem calls_char (accepts : Char → Bool) (expectation : ExpectationId) (s : State σ α) :
    (char accepts expectation s : Outcome ε (Value α) × State σ α).2.calls = s.calls := by
  unfold char
  split
  · split
    · rfl
    · exact calls_fail expectation s
  · exact calls_fail expectation s

end Matcher

/-- Behind a match of what is inside it, an operator that neither repeats nor calls is done. -/
theorem Operator.calls_run (host : Host σ α ε) {operator : Operator} (hz : operator ≠ .zeroOrMore)
    (ho : operator ≠ .oneOrMore) (ha : ∀ code, operator ≠ .action code) (m : Matcher σ α ε)
    (s : State σ α) : (operator.run host m s).2.calls = (m (operator.around s)).2.calls := by
  rcases he : m (operator.around s) with ⟨o, t⟩
  cases operator with
  | labeled label => exact congrArg (fun p => p.2.calls) (Matcher.labeled_eq label he)
  | named expectation =>
    rw [run, Matcher.named_eq expectation he]
    cases o with
    | failed => exact Matcher.calls_fail expectation _
    | matched | aborted => rfl
  | action code => exact absurd rfl (ha code)
  | text => exact congrArg (fun p => p.2.calls) (Matcher.mapValue_isolate_eq _ he)
  | optional => exact congrArg (fun p => p.2.calls) (Matcher.optional_eq he)
  | zeroOrMore => exact absurd rfl hz
  | oneOrMore => exact absurd rfl ho
  | group => exact congrArg (fun p => p.2.calls) (Matcher.isolate_eq he)
  | followedBy => rw [run, Matcher.lookahead_eq false he]
  | notFollowedBy => rw [run, Matcher.lookahead_eq true he]

namespace Node

theorem runSequence_concat {host : Host σ α ε} {call : RuleId → Matcher σ α ε} {front : List Node}
    {node : Node} {s t s' : State σ α} {values : List (Value α)} {value : Value α}
    (hfront : runSequence host call front s = (.matched values, t))
    (hnode : node.run host call t = (.matched value, s')) :
    runSequence host call (front ++ [node]) s = (.matched (values ++ [value]), s') := by
  induction front generalizing s values with
  | nil =>
    rw [runSequence] at hfront
    cases hfront
    simp only [List.nil_append, runSequence, hnode]
  | cons first front ih =>
    rw [runSequence] at hfront
    rw [List.cons_append, runSequence]
    rcases hf : first.run host call s with ⟨o, s₁⟩
    rw [hf] at hfront
    cases o with
    | matched head =>
      dsimp only at hfront ⊢
      rcases hr : runSequence host call front s₁ with ⟨o', s₂⟩
      rw [hr] at hfront
      cases o' with
      | matched tail =>
        cases hfront
        rw [ih hr]
        rfl
      | failed => cases hfront
      | aborted e => cases hfront
    | failed => cases hfront
    | aborted e => cases hfront

theorem runChoice_concat {host : Host σ α ε} {call : RuleId → Matcher σ α ε} {front : List Node}
    {node : Node} {s t s' : State σ α} (hfront : runChoice host call front s = (.failed, t))
    (hnode : node.run host call t = (.failed, s')) :
    runChoice host call (front ++ [node]) s = (.failed, { s' with scope := t.scope }) := by
  induction front generalizing s with
  | nil =>
    rw [runChoice] at hfront
    cases hfront
    simp only [List.nil_append, runChoice, Matcher.isolate_eq hnode]
  | cons first front ih =>
    rw [runChoice] at hfront
    rw [List.cons_append, runChoice]
    rcases hf : Matcher.isolate (first.run host call) s with ⟨o, s₁⟩
    rw [hf] at hfront
    cases o with
    | failed => exact ih hfront
    | matched value => cases hfront
    | aborted e => cases hfront

section Coverage

variable {host : Host σ α ε} {call : RuleId → Matcher σ α ε} {P : Call α → Prop}
  (Here : List Nat → Node → State σ α → Prop)
  (hpart : ∀ {path node s i node' s'}, Here path node s → node.Enters host call s i node' s' →
    Here (path ++ [i]) node' s')
  (hmade : ∀ {path node s made}, Here path node s → node.Makes host call s made → P made)
  (hcall : ∀ {path id s}, Here path (.ruleRef id) s → s.Adds P (call id s).2)

include hpart

theorem adds_runSequence {path : List Nat} {nodes : List Node} {s : State σ α}
    (hn : ∀ node ∈ nodes, ∀ {path s}, Here path node s → s.Adds P (node.run host call s).2)
    (h : Here path (.sequence nodes) s) : s.Adds P (runSequence host call nodes s).2 := by
  have hback (back : List Node) : ∀ {front values t}, nodes = front ++ back →
      runSequence host call front s = (.matched values, t) →
      t.Adds P (runSequence host call back t).2 := by
    induction back with
    | nil =>
      intro front values t _ _
      rw [runSequence]
      exact State.adds_of_calls rfl
    | cons node back ih =>
      intro front values t hnodes hfront
      have hentered : (Node.sequence nodes).Enters host call s front.length node t :=
        hnodes ▸ .element hfront
      have hnode := hn node (hnodes ▸ List.mem_append_right _ List.mem_cons_self)
        (hpart h hentered)
      rw [runSequence]
      rcases he : node.run host call t with ⟨o, t'⟩
      rw [he] at hnode
      cases o with
      | matched value =>
        have hrest := ih (hnodes.trans (List.append_cons front node back))
          (runSequence_concat hfront he)
        dsimp only
        rcases hr : runSequence host call back t' with ⟨o', t''⟩
        rw [hr] at hrest
        cases o' <;> exact hnode.trans hrest
      | failed => exact hnode
      | aborted e => exact hnode
  exact hback nodes rfl (by rw [runSequence])

theorem adds_runChoice {path : List Nat} {nodes : List Node} {s : State σ α}
    (hn : ∀ node ∈ nodes, ∀ {path s}, Here path node s → s.Adds P (node.run host call s).2)
    (h : Here path (.choice nodes) s) : s.Adds P (runChoice host call nodes s).2 := by
  have hback (back : List Node) : ∀ {front t}, nodes = front ++ back →
      runChoice host call front s = (.failed, t) → t.Adds P (runChoice host call back t).2 := by
    induction back with
    | nil =>
      intro front t _ _
      rw [runChoice]
      exact State.adds_of_calls rfl
    | cons node back ih =>
      intro front t hnodes hfront
      have hentered : (Node.choice nodes).Enters host call s front.length node t :=
        hnodes ▸ .alternative hfront
      have hnode := hn node (hnodes ▸ List.mem_append_right _ List.mem_cons_self)
        (hpart h hentered)
      rw [runChoice]
      rcases he : node.run host call t with ⟨o, t'⟩
      rw [he] at hnode
      rw [Matcher.isolate_eq he]
      cases o with
      | failed =>
        have hrest := ih (hnodes.trans (List.append_cons front node back))
          (runChoice_concat hfront he)
        exact (hnode.congr rfl rfl).trans hrest
      | matched value => exact hnode
      | aborted e => exact hnode
  exact hback nodes rfl (by rw [runChoice])

theorem adds_rounds {path : List Nat} {operator : Operator} {body : Node} {s s' t : State σ α}
    {bound : List Char} {o : Outcome ε (List (Value α))}
    (hr : operator = .zeroOrMore ∨ operator = .oneOrMore)
    (hb : ∀ {path s}, Here path body s → s.Adds P (body.run host call s).2)
    (h : Here path (.wrapped operator body) s)
    (hrounds : Matcher.Rounds (body.run host call) bound s' o t)
    (he : (Node.wrapped operator body).Enters host call s 0 body s') : s'.Adds P t := by
  induction hrounds with
  | failed hm | aborted hm | last hm hend =>
    have hround := hb (hpart h he)
    rw [hm] at hround
    exact hround
  | again hm hmoved hrest ih =>
    have hround := hb (hpart h he)
    rw [hm] at hround
    exact (hround.congr rfl rfl).trans (ih (.again hr he hm hmoved))

theorem adds_repeated {path : List Nat} {operator : Operator} {body : Node} {s : State σ α}
    (hr : operator = .zeroOrMore ∨ operator = .oneOrMore)
    (hb : ∀ {path s}, Here path body s → s.Adds P (body.run host call s).2)
    (h : Here path (.wrapped operator body) s) (needsOne : Bool) :
    s.Adds P (Matcher.repeated needsOne (body.run host call) s).2 := by
  have hinside : (Node.wrapped operator body).Enters host call s 0 body s := by
    rcases hr with rfl | rfl
    · exact .inside
    · exact .inside
  obtain ⟨o, t, hrounds⟩ := Matcher.exists_rounds (body.run host call) s.cursor.rest s
  rw [Matcher.repeated_eq needsOne hrounds]
  exact adds_rounds Here hpart hr hb h hrounds hinside

include hmade

theorem adds_action {path : List Nat} {code : String} {body : Node} {s : State σ α}
    (hb : ∀ {path s}, Here path body s → s.Adds P (body.run host call s).2)
    (h : Here path (.wrapped (.action code) body) s) :
    s.Adds P (Matcher.action host code (body.run host call) s).2 := by
  have hbody := hb (hpart h .inside)
  change s.Adds P (body.run host call s).2 at hbody
  rcases he : body.run host call s with ⟨o, t⟩
  rw [he] at hbody
  rw [Matcher.action_eq host code he]
  cases o with
  | matched value =>
    intro made hm
    rcases List.mem_cons.mp hm with rfl | hm
    · exact Or.inr (hmade h (.action he))
    · exact hbody made hm
  | failed => exact hbody
  | aborted e => exact hbody

include hcall

/-- If a run comes to the node, all calls that it adds are made where it comes by. -/
theorem adds_run (node : Node) :
    ∀ {path s}, Here path node s → s.Adds P (node.run host call s).2 := by
  induction node using Node.induct with
  | literal matcher expectation =>
    intro path s h
    rw [run]
    exact State.adds_of_calls (Matcher.calls_literal matcher expectation s)
  | charClass matcher expectation =>
    intro path s h
    rw [run]
    exact State.adds_of_calls (Matcher.calls_char _ expectation s)
  | any expectation =>
    intro path s h
    rw [run]
    exact State.adds_of_calls (Matcher.calls_char _ expectation s)
  | ruleRef id =>
    intro path s h
    rw [run]
    exact hcall h
  | predicate negated code =>
    intro path s h made hm
    rw [run, Matcher.predicate_eq] at hm
    rcases List.mem_cons.mp hm with rfl | hm
    · exact Or.inr (hmade h .predicate)
    · exact Or.inl hm
  | sequence nodes ih =>
    intro path s h
    have hadds := adds_runSequence Here hpart ih h
    rw [run]
    dsimp only
    rcases hr : runSequence host call nodes s with ⟨o, t⟩
    rw [hr] at hadds
    cases o <;> exact hadds
  | choice nodes ih =>
    intro path s h
    rw [run]
    exact adds_runChoice Here hpart ih h
  | wrapped operator body ih =>
    intro path s h
    rw [run]
    by_cases hz : operator = .zeroOrMore
    · rw [hz] at h ⊢
      exact adds_repeated Here hpart (Or.inl rfl) ih h false
    by_cases ho : operator = .oneOrMore
    · rw [ho] at h ⊢
      exact adds_repeated Here hpart (Or.inr rfl) ih h true
    by_cases ha : ∃ code, operator = .action code
    · obtain ⟨code, rfl⟩ := ha
      exact adds_action Here hpart hmade ih h
    · have haround : (operator.around s).calls = s.calls := by cases operator <;> rfl
      have hbody := ih (hpart h .inside)
      have hcalls := Operator.calls_run host hz ho (fun code hc => ha ⟨code, hc⟩)
        (body.run host call) s
      exact hbody.congr haround.symm hcalls

end Coverage

end Node

namespace Program

variable {program : Program} {host : Host σ α ε} {limit : Nat} {start : RuleId} {first : State σ α}

theorem calls_leave (program : Program) (id : RuleId) (rule : CompiledRule) (start : Cursor)
    (result : Option (Value α)) (s : State σ α) :
    ((s.remember program id start result).leave program rule start result :
      Outcome ε (Value α) × State σ α).2.calls = s.calls := by
  obtain ⟨events, he⟩ := State.leave_eq program rule start result
    (s.remember program id start result)
  rw [he, State.remember_eq]

/-- The calls that an invocation adds are made where the run comes by, if it comes to the body. -/
theorem adds_invoke {depth : Nat} {id : RuleId} {s : State σ α}
    (h : ∀ depth' rule, depth = depth' + 1 → program.rules[id]? = some rule →
      s.memoized? program id = none →
      program.Runs host limit start first depth' id [] rule.node (s.entering program rule)) :
    s.Adds (fun made => ∃ id path, program.MadeAt host limit start first id path made)
      (program.invoke host limit depth id s).2 := by
  induction depth using Nat.strongRecOn generalizing id s with
  | _ depth ih =>
    cases hr : program.rules[id]? with
    | none =>
      rw [invoke_unknown program host limit hr]
      exact State.adds_of_calls rfl
    | some rule =>
      obtain ⟨events, he⟩ := State.trace_eq program .enter rule s.cursor s.cursor s
      cases hm : s.memoized? program id with
      | some result =>
        obtain ⟨events', he'⟩ := State.leave_eq program rule s.cursor result.value
          ({ s.trace program .enter rule s.cursor s.cursor with cursor := result.stop } : State σ α)
        rw [invoke_hit program host limit hr hm, he', he]
        exact State.adds_of_calls rfl
      | none =>
        cases depth with
        | zero =>
          rw [invoke_zero program host limit hr hm, he]
          exact State.adds_of_calls rfl
        | succ depth =>
          have hbody : (s.entering program rule).Adds
              (fun made => ∃ id path, program.MadeAt host limit start first id path made)
              (rule.node.run host (program.invoke host limit depth)
                (s.entering program rule)).2 := by
            refine Node.adds_run (program.Runs host limit start first depth id)
              (fun here entered => .part here entered)
              (fun here made => ⟨id, _, depth, _, _, here, made⟩)
              (fun here => ih depth (Nat.lt_succ_self depth) fun depth' rule' hd hf hnew => ?_)
              rule.node (h depth rule rfl hr hm)
            subst hd
            exact .call here hf hnew
          have hcalls : (s.entering program rule).calls = s.calls := by rw [State.entering, he]
          rcases hb : rule.node.run host (program.invoke host limit depth) (s.entering program rule)
            with ⟨o, t⟩
          rw [hb] at hbody
          refine hbody.congr hcalls.symm ?_
          obtain ⟨result, rfl⟩ | ⟨e, rfl⟩ := o.ended_or_aborted
          · rw [invoke_ended program host limit hr hm hb]
            exact calls_leave program id rule s.cursor result _
          · rw [invoke_aborted program host limit hr hm hb]

/-- Before the start rule is invoked, the host is only called for the initializer. -/
theorem adds_runInitializer {s s' : State σ α} {o : Outcome ε Unit}
    (h : program.runInitializer host s = (o, s')) :
    s.Adds (fun made => made.kind = .initializer) s' := by
  unfold runInitializer at h
  split at h
  · rename_i code hi
    have hcalls : s'.calls =
        ⟨.initializer, code, ⟨s.cursor, s.cursor, s.scope.reverse, none⟩⟩ :: s.calls := by
      unfold Matcher.callHost at h
      dsimp only at h
      split at h
      · cases h
        rfl
      · cases h
        rfl
    intro made hm
    rw [hcalls] at hm
    exact (List.mem_cons.mp hm).elim (fun he => Or.inr (he ▸ rfl)) Or.inl
  · cases h
    exact State.adds_of_calls rfl

/-- Every call of the host is made where the parse comes by, the one for the initializer apart. -/
theorem exists_place_of_call {memory : σ} {input : String} {options : ParseOptions} {made : Call α}
    (h : made ∈ (program.parse host memory input options).calls) :
    made.kind = .initializer ∨
      ∃ id path, program.CalledAt host memory input options id path made := by
  cases hs : program.findStart options.startRule with
  | error e =>
    rw [parse, hs] at h
    cases h
  | ok start =>
    rcases hf : program.runFrom host options.maxDepth start (.initial input memory) with ⟨o, s'⟩
    rw [parse_eq hs hf] at h
    have hm := List.mem_reverse.mp h
    rcases hi : program.runInitializer host (.initial input memory) with ⟨answer, first⟩
    have hfirst (hmade : made ∈ first.calls) : made.kind = .initializer :=
      (adds_runInitializer hi made hmade).elim (fun hnone => absurd hnone List.not_mem_nil) id
    rw [runFrom, hi] at hf
    cases answer with
    | matched result =>
      have hadds : first.Adds
          (fun made => ∃ id path, program.MadeAt host options.maxDepth start first id path made)
          (program.invoke host options.maxDepth options.maxDepth start first).2 :=
        adds_invoke fun depth' rule hd hr hnew => .start hd hr hnew
      dsimp only at hf
      rw [hf] at hadds
      rcases hadds made hm with hold | ⟨id, path, hmade⟩
      · exact Or.inl (hfirst hold)
      · exact Or.inr ⟨id, path, start, first, hs, hi, hmade⟩
    | failed =>
      cases hf
      exact Or.inl (hfirst hm)
    | aborted e =>
      cases hf
      exact Or.inl (hfirst hm)

end Program
end Peg
