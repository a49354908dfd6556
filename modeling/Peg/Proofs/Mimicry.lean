import Peg.Proofs.Assembly
import Peg.Proofs.Lockstep

/-! Expressions that do the same although they are not the same: groups and display names where they
have no effect, and choices that are written out. What such expressions denote keeps in step. -/
namespace Peg

variable {σ α ε : Type}

def KeepsScope (m : Matcher σ α ε) : Prop := ∀ s : State σ α, (m s).2.scope = s.scope

namespace Matcher

variable {m : Matcher σ α ε}

theorem fail_keepsScope (id : ExpectationId) : KeepsScope (fail id : Matcher σ α ε) := by
  intro s
  obtain ⟨furthest, expected, he⟩ := State.recordFailure_eq id s
  rw [fail, he]

theorem literal_keepsScope (matcher : LiteralMatcher) (id : ExpectationId) :
    KeepsScope (literal matcher id : Matcher σ α ε) := by
  intro s
  unfold literal
  split
  · rfl
  · exact fail_keepsScope id s

theorem char_keepsScope (accepts : Char → Bool) (id : ExpectationId) :
    KeepsScope (char accepts id : Matcher σ α ε) := by
  intro s
  unfold char
  split
  · split
    · rfl
    · exact fail_keepsScope id s
  · exact fail_keepsScope id s

theorem predicate_keepsScope (host : Host σ α ε) (negated : Bool) (code : String) :
    KeepsScope (predicate host negated code : Matcher σ α ε) := by
  intro s
  rw [predicate_eq]

theorem Rounds.scope_eq {bound : List Char} {s s' : State σ α} {o : Outcome ε (List (Value α))}
    (h : Rounds m bound s o s') : s'.scope = s.scope := by
  induction h with
  | failed | aborted | last => rfl
  | again h hmoved hrest ih => exact ih

theorem repeated_keepsScope (needsOne : Bool) : KeepsScope (repeated needsOne m) := by
  intro s
  obtain ⟨o, s', h⟩ := exists_rounds m s.cursor.rest s
  rw [repeated_eq needsOne h]
  exact h.scope_eq

/-- Labels that are dropped already are dropped only once. -/
theorem isolate_isolate (m : Matcher σ α ε) : isolate (isolate m) = isolate m := rfl

theorem isolate_of_keepsScope (hm : KeepsScope m) : isolate m = m := by
  funext s
  have hs := hm s
  rcases he : m s with ⟨o, t⟩
  rw [he] at hs
  rw [isolate_eq he, ← hs]

theorem repeatWithin_isolate (m : Matcher σ α ε) (bound : List Char) :
    repeatWithin (isolate m) bound = repeatWithin m bound := by
  induction bound with
  | nil => funext s; rw [repeatWithin, repeatWithin, isolate_isolate]
  | cons a rest ih =>
    funext s
    unfold repeatWithin
    rw [isolate_isolate]
    simp only [ih]

/-- A failure that goes unrecorded leaves no trace. -/
theorem fail_muted (id : ExpectationId) {s : State σ α} (hs : s.muted = true) :
    (fail id s : Outcome ε (Value α) × State σ α) = (.failed, s) := by
  unfold fail State.recordFailure
  rw [hs, Bool.true_or, if_pos rfl]

/-- Inside a display name another one has no say. -/
theorem named_named (outer inner : ExpectationId) (m : Matcher σ α ε) :
    named outer (named inner m) = named outer m := by
  funext s
  rcases he : m { s with muted := true } with ⟨o, t⟩
  have hi := named_eq inner (s := { s with muted := true }) he
  rw [named_eq outer he]
  cases o with
  | matched value => exact named_eq outer hi
  | failed => exact named_eq outer (hi.trans (fail_muted inner rfl))
  | aborted e => exact named_eq outer hi

end Matcher

namespace Operator

theorem run_keepsScope (host : Host σ α ε) {operator : Operator}
    (hl : ∀ label, operator ≠ .labeled label) (m : Matcher σ α ε) :
    KeepsScope (operator.run host m) := by
  intro s
  cases operator with
  | labeled label => exact absurd rfl (hl label)
  | zeroOrMore => exact Matcher.repeated_keepsScope false s
  | oneOrMore => exact Matcher.repeated_keepsScope true s
  | group => rfl
  | named id =>
    rcases he : m { s with muted := true } with ⟨o, t⟩
    rw [run, Matcher.named_eq id he]
    cases o with
    | matched value => rfl
    | failed => exact Matcher.fail_keepsScope id _
    | aborted e => rfl
  | action code =>
    rcases he : m s with ⟨o, t⟩
    rw [run, Matcher.action_eq host code he]
    cases o <;> rfl
  | text =>
    rcases he : m s with ⟨o, t⟩
    rw [run, Matcher.mapValue_isolate_eq _ he]
  | optional =>
    rcases he : m s with ⟨o, t⟩
    rw [run, Matcher.optional_eq he]
  | followedBy | notFollowedBy =>
    rcases he : m { s with muted := true } with ⟨o, t⟩
    rw [run, Matcher.lookahead_eq _ he]

/-- But for actions, what is inside an operator may drop its labels itself. -/
theorem run_isolate (host : Host σ α ε) {operator : Operator}
    (ha : ∀ code, operator ≠ .action code) (m : Matcher σ α ε) :
    operator.run host m.isolate = operator.run host m := by
  cases operator with
  | action code => exact absurd rfl (ha code)
  | zeroOrMore | oneOrMore =>
    funext s
    simp only [run, Matcher.repeated, Matcher.repeatWithin_isolate]
  | labeled | named | text | optional | group | followedBy | notFollowedBy => rfl

end Operator

namespace Program

theorem invoke_keepsScope (program : Program) (host : Host σ α ε) (limit depth : Nat)
    (id : RuleId) :
    KeepsScope (program.invoke host limit depth id) := by
  intro s
  rcases he : program.invoke host limit depth id s with ⟨o, s'⟩
  rcases invoke_cases program host limit he with ⟨-, rfl, rfl⟩ |
    ⟨found, result, events, -, -, rfl, rfl⟩ |
    ⟨found, events, -, -, -, -, rfl⟩ | ⟨found, depth', o', t, events, -, -, rfl, -, hend⟩
  · rfl
  · rfl
  · obtain ⟨events', ht⟩ := State.trace_eq program .enter found s.cursor s.cursor s
    rw [ht]
  · rcases hend with ⟨e, -, -, rfl⟩ | ⟨result, events', -, -, rfl⟩
    · rfl
    · rw [State.remember_eq]

end Program

namespace Wrapper.Denotes

variable {expectations : Array Expectation} {operator : Operator}

theorem eq_named {name : String} (h : (Wrapper.named name).Denotes expectations operator) :
    ∃ id, operator = .named id := by
  cases h with
  | named _ id _ => exact ⟨id, rfl⟩
  | plain _ _ hn => exact absurd rfl (hn name)

theorem eq_group (h : Wrapper.group.Denotes expectations operator) : operator = .group := by
  cases h with
  | plain _ _ _ hb => cases hb; rfl

theorem ne_action {wrapper : Wrapper} (h : wrapper.Denotes expectations operator)
    (ha : ∀ code, wrapper ≠ .action code) (code : String) : operator ≠ .action code := by
  rintro rfl
  cases h with
  | plain _ _ _ hb =>
    cases hb
    exact ha code rfl

theorem ne_labeled {wrapper : Wrapper} (h : wrapper.Denotes expectations operator)
    (hl : ∀ label, wrapper ≠ .labeled label) (label : String) : operator ≠ .labeled label := by
  rintro rfl
  cases h with
  | plain _ _ _ hb =>
    cases hb
    exact hl label rfl

/-- One wrapper denotes operators that match, each by its own table. -/
theorem operator_matches {k : Comparison α ε} {wrapper : Wrapper} {operator operator' : Operator}
    (h : wrapper.Denotes k.left operator) (h' : wrapper.Denotes k.right operator') :
    operator.Matches k operator' := by
  cases h with
  | named name id hi =>
    cases h' with
    | named _ id' hi' => exact .named id id' (hi'.trans hi.symm)
    | plain _ _ hn => exact absurd rfl (hn name)
  | plain _ _ hn hb =>
    cases h' with
    | named name => exact absurd rfl (hn name)
    | plain _ _ _ hb' =>
      cases hb.unique hb' hn
      refine .same operator fun id ho => ?_
      subst ho
      cases hb with
      | named name => exact hn name rfl

end Wrapper.Denotes

namespace Expr

mutual

def bindsLabels : Expr → Bool
  | wrapped _ (.labeled _) _ => true
  | sequence _ elements => anyBindsLabels elements
  | _ => false

def anyBindsLabels : List Expr → Bool
  | [] => false
  | e :: es => e.bindsLabels || anyBindsLabels es

end

theorem anyBindsLabels_iff {es : List Expr} :
    anyBindsLabels es = true ↔ ∃ e ∈ es, e.bindsLabels = true := by
  induction es with
  | nil => simp [anyBindsLabels]
  | cons e es ih => simp [anyBindsLabels, ih]

/-- Expressions that leak no labels bind none. -/
theorem bindsLabels_of_leaksLabels {e : Expr} (h : e.leaksLabels = false) :
    e.bindsLabels = false := by
  cases e with
  | sequence => cases h
  | wrapped span wrapper body =>
    cases wrapper with
    | labeled label => cases h
    | named | action | text | optional | zeroOrMore | oneOrMore | group | followedBy
    | notFollowedBy => rw [bindsLabels] <;> nofun
  | literal | charClass | any | ruleRef | predicate | choice => rw [bindsLabels] <;> nofun

/-- The second expression does what the first one does, if what `Calls` relates does. -/
inductive Mimics (Calls : String → String → Prop) : Expr → Expr → Prop where
  | literal (span span' : Span) (lit : Literal) :
      Mimics Calls (.literal span lit) (.literal span' lit)
  | charClass (span span' : Span) (members : CharClass) :
      Mimics Calls (.charClass span members) (.charClass span' members)
  | any (span span' : Span) : Mimics Calls (.any span) (.any span')
  | ruleRef (span span' : Span) (name name' : String) (hc : Calls name name') :
      Mimics Calls (.ruleRef span name) (.ruleRef span' name')
  | predicate (span span' : Span) (negated : Bool) (code : String) :
      Mimics Calls (.predicate span negated code) (.predicate span' negated code)
  | sequence_nil (span span' : Span) : Mimics Calls (.sequence span []) (.sequence span' [])
  | sequence_cons (span span' : Span) (e e' : Expr) (es es' : List Expr) (he : Mimics Calls e e')
      (hes : Mimics Calls (.sequence span es) (.sequence span' es')) :
      Mimics Calls (.sequence span (e :: es)) (.sequence span' (e' :: es'))
  | choice_nil (span span' : Span) : Mimics Calls (.choice span []) (.choice span' [])
  | choice_cons (span span' : Span) (e e' : Expr) (es es' : List Expr) (he : Mimics Calls e e')
      (hes : Mimics Calls (.choice span es) (.choice span' es')) :
      Mimics Calls (.choice span (e :: es)) (.choice span' (e' :: es'))
  /-- An alternative that is a choice is written out. -/
  | choice_splice (span span' inner : Span) (e : Expr) (es alternatives es' : List Expr)
      (he : Mimics Calls e (.choice inner alternatives))
      (hes : Mimics Calls (.choice span es) (.choice span' es')) :
      Mimics Calls (.choice span (e :: es)) (.choice span' (alternatives ++ es'))
  | wrapped (span span' : Span) (wrapper : Wrapper) (e e' : Expr) (he : Mimics Calls e e') :
      Mimics Calls (.wrapped span wrapper e) (.wrapped span' wrapper e')
  | ungroup (span : Span) (e e' : Expr) (hb : e'.bindsLabels = false) (he : Mimics Calls e e') :
      Mimics Calls (.wrapped span .group e) e'
  | group (span' : Span) (e e' : Expr) (hb : e'.bindsLabels = false) (he : Mimics Calls e e') :
      Mimics Calls e (.wrapped span' .group e')
  /-- All wrappers but actions keep labels inside as groups do. -/
  | ungroup_inside (span inner : Span) (wrapper : Wrapper) (e e' : Expr)
      (ha : ∀ code, wrapper ≠ .action code) (he : Mimics Calls (.wrapped span wrapper e) e') :
      Mimics Calls (.wrapped span wrapper (.wrapped inner .group e)) e'
  | group_inside (span' inner : Span) (wrapper : Wrapper) (e e' : Expr)
      (ha : ∀ code, wrapper ≠ .action code) (he : Mimics Calls e (.wrapped span' wrapper e')) :
      Mimics Calls e (.wrapped span' wrapper (.wrapped inner .group e'))
  /-- Of two display names the outer one counts. -/
  | unname_inside (span inner : Span) (name name' : String) (e e' : Expr)
      (he : Mimics Calls (.wrapped span (.named name) e) e') :
      Mimics Calls (.wrapped span (.named name) (.wrapped inner (.named name') e)) e'

/-- Sequences do the same whose elements do. -/
theorem Mimics.sequence {Calls : String → String → Prop} {es es' : List Expr}
    (h : List.Forall₂ (Mimics Calls) es es') (span span' : Span) :
    (Expr.sequence span es).Mimics Calls (.sequence span' es') := by
  induction h with
  | nil => exact .sequence_nil span span'
  | cons he _ ih => exact .sequence_cons span span' _ _ _ _ he ih

/-- Choices do the same whose alternatives do. -/
theorem Mimics.choice {Calls : String → String → Prop} {es es' : List Expr}
    (h : List.Forall₂ (Mimics Calls) es es') (span span' : Span) :
    (Expr.choice span es).Mimics Calls (.choice span' es') := by
  induction h with
  | nil => exact .choice_nil span span'
  | cons he _ ih => exact .choice_cons span span' _ _ _ _ he ih

/-- Expressions that are changed one by one. -/
theorem forall₂_map {R : Expr → Expr → Prop} {f : Expr → Expr} {es : List Expr}
    (h : ∀ e ∈ es, R e (f e)) : List.Forall₂ R es (es.map f) := by
  rw [List.forall₂_map_right_iff]
  exact List.forall₂_same.mpr h

end Expr

namespace Node

variable (host : Host σ α ε) {call call' : RuleId → Matcher σ α ε}

theorem sequence_keepsScope {nodes : List Node}
    (hn : ∀ node ∈ nodes, KeepsScope (node.run host call)) :
    KeepsScope ((Node.sequence nodes).run host call) := by
  induction nodes with
  | nil => intro s; rw [run_sequence_nil]
  | cons node nodes ih =>
    intro s
    have hs := hn node List.mem_cons_self s
    rcases he : node.run host call s with ⟨o, t⟩
    rw [he] at hs
    rw [run_sequence_cons host call node nodes he]
    cases o with
    | failed => rfl
    | aborted e => exact hs
    | matched value =>
      have ht := ih (fun n hm => hn n (List.mem_cons_of_mem _ hm)) t
      dsimp only
      rcases hr : (Node.sequence nodes).run host call t with ⟨o', u⟩
      rw [hr] at ht
      cases o' with
      | failed => rfl
      | matched values => exact ht.trans hs
      | aborted e => exact ht.trans hs

theorem choice_keepsScope (call : RuleId → Matcher σ α ε) (nodes : List Node) :
    KeepsScope ((Node.choice nodes).run host call) := by
  induction nodes with
  | nil => intro s; rw [run_choice_nil]
  | cons node nodes ih =>
    intro s
    rcases he : node.run host call s with ⟨o, t⟩
    rw [run_choice_cons host call node nodes he]
    cases o with
    | failed => exact ih { t with scope := s.scope }
    | matched value => rfl
    | aborted e => rfl

/-- What an expression denotes that binds no labels keeps the labels in scope. -/
theorem run_keepsScope (hc : ∀ id, KeepsScope (call id)) {ruleIndex : String → Option RuleId}
    {forSpeed : Bool} {expectations : Array Expectation} {e : Expr} {node : Node}
    (hd : e.Denotes ruleIndex forSpeed expectations node) (hb : e.bindsLabels = false) :
    KeepsScope (node.run host call) := by
  induction hd using Expr.Denotes.induct with
  | literal => rw [run]; exact Matcher.literal_keepsScope _ _
  | charClass => rw [run]; exact Matcher.char_keepsScope _ _
  | any => rw [run]; exact Matcher.char_keepsScope _ _
  | ruleRef span name id => rw [run]; exact hc id
  | predicate => rw [run]; exact Matcher.predicate_keepsScope _ _ _
  | sequence span elements nodes _ ih =>
    refine sequence_keepsScope host fun node hm => ?_
    obtain ⟨e, he, -, hnode⟩ := exists_of_forall₂ ih hm
    refine hnode ?_
    rw [← Bool.not_eq_true] at hb ⊢
    exact fun h => hb (by rw [Expr.bindsLabels, Expr.anyBindsLabels_iff]; exact ⟨e, he, h⟩)
  | choice span alternatives nodes => exact choice_keepsScope host call nodes
  | wrapped span wrapper operator body node hw =>
    rw [run]
    refine Operator.run_keepsScope host (hw.ne_labeled fun label he => ?_) _
    rw [he] at hb
    cases hb

/-- The alternatives of two choices one behind the other. -/
theorem run_choice_append (nodes nodes' : List Node) {s t : State σ α} {o : Outcome ε (Value α)} :
    (Node.choice nodes).run host call s = (o, t) →
    (Node.choice (nodes ++ nodes')).run host call s = match o with
      | .failed => (Node.choice nodes').run host call t
      | o => (o, t) := by
  intro h
  induction nodes generalizing s with
  | nil =>
    rw [run_choice_nil] at h
    cases h
    rfl
  | cons node nodes ih =>
    rcases he : node.run host call s with ⟨o₁, u⟩
    rw [run_choice_cons host call node nodes he] at h
    rw [List.cons_append, run_choice_cons host call node _ he]
    cases o₁ with
    | failed => exact ih h
    | matched value => cases h; rfl
    | aborted e => cases h; rfl

theorem splice_lockstep {k : Comparison α ε} {node : Node} {nodes inner nodes' : List Node}
    (hn : Lockstep k (node.run host call) ((Node.choice inner).run host call'))
    (hs : Lockstep k ((Node.choice nodes).run host call) ((Node.choice nodes').run host call')) :
    Lockstep k ((Node.choice (node :: nodes)).run host call)
      ((Node.choice (inner ++ nodes')).run host call') := by
  intro s t h
  have hscope := choice_keepsScope host call' inner t
  rcases he : node.run host call s with ⟨o, u⟩
  rw [run_choice_cons host call node nodes he]
  obtain ⟨e, rfl, hk⟩ | ⟨u', he', hu⟩ := hn.follow h he
  · exact Or.inl ⟨e, rfl, hk⟩
  rw [he'] at hscope
  rw [run_choice_append host inner nodes' he']
  have hu' : ({ u with scope := s.scope } : State σ α).Alike k u' :=
    { hu with scope := hscope.trans h.scope }
  cases o with
  | failed => exact hs _ u' hu'
  | matched value => exact Or.inr ⟨rfl, hu'⟩
  | aborted e => exact Or.inr ⟨rfl, hu'⟩

/-- A group around what keeps the labels in scope does nothing. -/
theorem run_group_of_keepsScope {node : Node} (h : KeepsScope (node.run host call)) :
    (wrapped .group node).run host call = node.run host call := by
  rw [run, Operator.run, Matcher.isolate_of_keepsScope h]

/-- But for actions, a group right inside an operator does nothing. -/
theorem run_wrapped_group {operator : Operator} (ha : ∀ code, operator ≠ .action code)
    (node : Node) :
    (wrapped operator (wrapped .group node)).run host call =
      (wrapped operator node).run host call := by
  rw [run, run, Operator.run, Operator.run_isolate host ha, run]

/-- A display name right inside another one does nothing. -/
theorem run_named_named (outer inner : ExpectationId) (node : Node) :
    (wrapped (.named outer) (wrapped (.named inner) node)).run host call =
      (wrapped (.named outer) node).run host call := by
  rw [run, run, run, Operator.run, Operator.run, Operator.run, Matcher.named_named]

end Node

namespace Expr.Denotes

variable {ruleIndex : String → Option RuleId} {forSpeed : Bool} {expectations : Array Expectation}
  {span : Span} {e : Expr} {es : List Expr} {node : Node}

theorem sequence_nil_inv
    (h : (Expr.sequence span []).Denotes ruleIndex forSpeed expectations node) :
    node = .sequence [] := by
  cases h with
  | sequence _ _ nodes hn =>
    cases hn
    rfl

theorem sequence_cons_inv
    (h : (Expr.sequence span (e :: es)).Denotes ruleIndex forSpeed expectations node) :
    ∃ first rest, node = .sequence (first :: rest) ∧
      e.Denotes ruleIndex forSpeed expectations first ∧
      (Expr.sequence span es).Denotes ruleIndex forSpeed expectations (.sequence rest) := by
  cases h with
  | sequence _ _ nodes hn =>
    cases hn with
    | cons hfirst hrest => exact ⟨_, _, rfl, hfirst, .sequence span es _ hrest⟩

theorem choice_nil_inv
    (h : (Expr.choice span []).Denotes ruleIndex forSpeed expectations node) :
    node = .choice [] := by
  cases h with
  | choice _ _ nodes hn =>
    cases hn
    rfl

theorem choice_cons_inv
    (h : (Expr.choice span (e :: es)).Denotes ruleIndex forSpeed expectations node) :
    ∃ first rest, node = .choice (first :: rest) ∧
      e.Denotes ruleIndex forSpeed expectations first ∧
      (Expr.choice span es).Denotes ruleIndex forSpeed expectations (.choice rest) := by
  cases h with
  | choice _ _ nodes hn =>
    cases hn with
    | cons hfirst hrest => exact ⟨_, _, rfl, hfirst, .choice span es _ hrest⟩

/-- The alternatives of one choice behind those of another have nodes of their own. -/
theorem choice_append_inv {alternatives : List Expr} (inner : Span)
    (h : (Expr.choice span (alternatives ++ es)).Denotes ruleIndex forSpeed expectations node) :
    ∃ front back, node = .choice (front ++ back) ∧
      (Expr.choice inner alternatives).Denotes ruleIndex forSpeed expectations (.choice front) ∧
      (Expr.choice span es).Denotes ruleIndex forSpeed expectations (.choice back) := by
  cases h with
  | choice _ _ nodes hn =>
    have hfront := (List.forall₂_take_append _ _ _ hn.flip).flip
    have hback := (List.forall₂_drop_append _ _ _ hn.flip).flip
    refine ⟨nodes.take alternatives.length, nodes.drop alternatives.length, ?_,
      .choice inner alternatives _ hfront, .choice span es _ hback⟩
    rw [List.take_append_drop]

theorem wrapped_inv {wrapper : Wrapper}
    (h : (Expr.wrapped span wrapper e).Denotes ruleIndex forSpeed expectations node) :
    ∃ operator inner, node = .wrapped operator inner ∧ wrapper.Denotes expectations operator ∧
      e.Denotes ruleIndex forSpeed expectations inner := by
  cases h with
  | wrapped _ _ operator _ inner hw hb => exact ⟨operator, inner, rfl, hw, hb⟩

theorem group_inv (h : (Expr.wrapped span .group e).Denotes ruleIndex forSpeed expectations node) :
    ∃ inner, node = .wrapped .group inner ∧ e.Denotes ruleIndex forSpeed expectations inner := by
  obtain ⟨operator, inner, rfl, hw, hb⟩ := h.wrapped_inv
  cases hw.eq_group
  exact ⟨inner, rfl, hb⟩

end Expr.Denotes

namespace Expr

/-- What expressions denote that do the same keeps in step, if the rules do. -/
theorem Mimics.lockstep {Calls : String → String → Prop} {e e' : Expr} (h : e.Mimics Calls e')
    {k : Comparison α ε} (host : Host σ α ε) {ruleIndex ruleIndex' : String → Option RuleId}
    {forSpeed : Bool} {call call' : RuleId → Matcher σ α ε}
    (hcalls : ∀ name name' id id', Calls name name' → ruleIndex name = some id →
      ruleIndex' name' = some id' → Lockstep k (call id) (call' id'))
    (hscope : ∀ id, KeepsScope (call' id)) {node node' : Node}
    (hd : e.Denotes ruleIndex forSpeed k.left node)
    (hd' : e'.Denotes ruleIndex' forSpeed k.right node') :
    Lockstep k (node.run host call) (node'.run host call') := by
  induction h generalizing node node' with
  | literal span span' lit =>
    cases hd with
    | literal _ _ id hi =>
      cases hd' with
      | literal _ _ id' hi' =>
        rw [Node.run, Node.run]
        exact Matcher.literal_lockstep _ (hi'.trans hi.symm)
  | charClass span span' members =>
    cases hd with
    | charClass _ _ id hi =>
      cases hd' with
      | charClass _ _ id' hi' =>
        rw [Node.run, Node.run]
        exact Matcher.char_lockstep _ (hi'.trans hi.symm)
  | any span span' =>
    cases hd with
    | any _ id hi =>
      cases hd' with
      | any _ id' hi' =>
        rw [Node.run, Node.run]
        exact Matcher.char_lockstep _ (hi'.trans hi.symm)
  | ruleRef span span' name name' hc =>
    cases hd with
    | ruleRef _ _ id hi =>
      cases hd' with
      | ruleRef _ _ id' hi' =>
        rw [Node.run, Node.run]
        exact hcalls name name' id id' hc hi hi'
  | predicate span span' negated code =>
    cases hd
    cases hd'
    rw [Node.run]
    exact Matcher.predicate_lockstep host negated code
  | sequence_nil span span' =>
    cases hd.sequence_nil_inv
    cases hd'.sequence_nil_inv
    intro s t hs
    rw [Node.run_sequence_nil, Node.run_sequence_nil]
    exact Or.inr ⟨rfl, hs⟩
  | sequence_cons span span' e e' es es' _ _ ihe ihes =>
    obtain ⟨first, rest, rfl, hfirst, hrest⟩ := hd.sequence_cons_inv
    obtain ⟨first', rest', rfl, hfirst', hrest'⟩ := hd'.sequence_cons_inv
    exact Node.sequence_lockstep host (ihe hfirst hfirst') (ihes hrest hrest')
  | choice_nil span span' =>
    cases hd.choice_nil_inv
    cases hd'.choice_nil_inv
    intro s t hs
    rw [Node.run_choice_nil, Node.run_choice_nil]
    exact Or.inr ⟨rfl, hs⟩
  | choice_cons span span' e e' es es' _ _ ihe ihes =>
    obtain ⟨first, rest, rfl, hfirst, hrest⟩ := hd.choice_cons_inv
    obtain ⟨first', rest', rfl, hfirst', hrest'⟩ := hd'.choice_cons_inv
    exact Node.choice_lockstep host (ihe hfirst hfirst') (ihes hrest hrest')
  | choice_splice span span' inner e es alternatives es' _ _ ihe ihes =>
    obtain ⟨first, rest, rfl, hfirst, hrest⟩ := hd.choice_cons_inv
    obtain ⟨front, back, rfl, hfront, hback⟩ := hd'.choice_append_inv inner
    exact Node.splice_lockstep host (ihe hfirst hfront) (ihes hrest hback)
  | wrapped span span' wrapper e e' _ ih =>
    obtain ⟨operator, inner, rfl, hw, hb⟩ := hd.wrapped_inv
    obtain ⟨operator', inner', rfl, hw', hb'⟩ := hd'.wrapped_inv
    rw [Node.run, Node.run]
    exact Operator.run_lockstep host (hw.operator_matches hw') (ih hb hb')
  -- A group that is added or taken away stands around what keeps the labels in scope, or right
  -- inside what drops them itself. It is isolated on the left first, as `hscope` is of the right.
  | ungroup span e e' hbinds _ ih =>
    obtain ⟨inner, rfl, hb⟩ := hd.group_inv
    rw [Node.run, ← Matcher.isolate_of_keepsScope (Node.run_keepsScope host hscope hd' hbinds)]
    exact Matcher.isolate_lockstep (ih hb hd')
  | group span' e e' hbinds _ ih =>
    obtain ⟨inner, rfl, hb⟩ := hd'.group_inv
    rw [Node.run_group_of_keepsScope host (Node.run_keepsScope host hscope hb hbinds)]
    exact ih hd hb
  | ungroup_inside span inner wrapper e e' ha _ ih =>
    obtain ⟨operator, outer, rfl, hw, hg⟩ := hd.wrapped_inv
    obtain ⟨body, rfl, hb⟩ := hg.group_inv
    rw [Node.run_wrapped_group host (hw.ne_action ha)]
    exact ih (.wrapped span wrapper operator e body hw hb) hd'
  | group_inside span' inner wrapper e e' ha _ ih =>
    obtain ⟨operator, outer, rfl, hw, hg⟩ := hd'.wrapped_inv
    obtain ⟨body, rfl, hb⟩ := hg.group_inv
    rw [Node.run_wrapped_group host (hw.ne_action ha)]
    exact ih hd (.wrapped span' wrapper operator e' body hw hb)
  | unname_inside span inner name name' e e' _ ih =>
    obtain ⟨operator, outer, rfl, hw, hd⟩ := hd.wrapped_inv
    obtain ⟨operator', body, rfl, hw', hb⟩ := hd.wrapped_inv
    obtain ⟨id, rfl⟩ := hw.eq_named
    obtain ⟨id', rfl⟩ := hw'.eq_named
    rw [Node.run_named_named]
    exact ih (.wrapped span (.named name) (.named id) e body hw hb) hd'

/-- The rule that a reference to `name` leads to when those to `old` lead to `new`. -/
def LedPast (old new name name' : String) : Prop := name' = if name = old then new else name

/-- Redirected, an expression does the same if the rules do that references lead to. -/
theorem mimics_redirect (old new : String) (e : Expr) :
    e.Mimics (LedPast old new) (e.rebuild (redirectRef old new)) := by
  induction e using Expr.induct with
  | literal span lit => exact .literal span span lit
  | charClass span members => exact .charClass span span members
  | any span => exact .any span span
  | ruleRef span name => exact .ruleRef span span name _ rfl
  | predicate span negated code => exact .predicate span span negated code
  | sequence span elements ih =>
    rw [rebuild, rebuildAll_eq_map]
    exact .sequence (forall₂_map ih) span span
  | choice span alternatives ih =>
    rw [rebuild, rebuildAll_eq_map]
    exact .choice (forall₂_map ih) span span
  | wrapped span wrapper body ih =>
    rw [rebuild]
    exact .wrapped span span wrapper body _ ih

end Expr
end Peg
