import Peg.Proofs.Cursor
import Peg.Proofs.Steps

/-! Two runs side by side. The states of both agree in all that the rest of a run can see, up to the
tables in which the expectations stand and up to what is kept of rules; and matchers put together in
the same way out of matchers that keep in step keep in step. -/
namespace Peg

variable {σ α ε β γ : Type}

structure Comparison (α ε : Type) where
  /-- The places where both runs may be. -/
  Within : Cursor → Prop
  within_of_reaches : ∀ c stop, Within c → c.Reaches stop → Within stop
  /-- The expectations that the numbers of the first run stand for. -/
  left : Array Expectation
  /-- The expectations that the numbers of the second run stand for. -/
  right : Array Expectation
  /-- How what is kept of rules in the two runs is related. -/
  Known : Memo α → Memo α → Prop
  /-- The errors behind which the first run need not be followed any more. -/
  Excused : ParseError ε → Prop
  /-- Whether the events are to be the same, too. -/
  traced : Prop

variable {k : Comparison α ε}

namespace State

structure Alike (k : Comparison α ε) (s t : State σ α) : Prop where
  within : k.Within s.cursor
  cursor : t.cursor = s.cursor
  scope : t.scope = s.scope
  muted : t.muted = s.muted
  furthest : t.furthest = s.furthest
  expected : t.expected.map (k.right[·]?) = s.expected.map (k.left[·]?)
  memo : k.Known s.memo t.memo
  events : k.traced → t.events = s.events
  calls : t.calls = s.calls
  host : t.host = s.host

theorem Alike.mute {s t : State σ α} (h : s.Alike k t) :
    ({ s with muted := true } : State σ α).Alike k { t with muted := true } :=
  { h with muted := rfl }

theorem Alike.recordFailure {s t : State σ α} (h : s.Alike k t) {id id' : ExpectationId}
    (hi : k.right[id']? = k.left[id]?) : (s.recordFailure id).Alike k (t.recordFailure id') := by
  have hmuted : (t.muted || decide (t.cursor.offset < t.furthest.offset)) =
      (s.muted || decide (s.cursor.offset < s.furthest.offset)) := by
    rw [h.muted, h.cursor, h.furthest]
  have hfurther : t.furthest.offset < t.cursor.offset ↔ s.furthest.offset < s.cursor.offset := by
    rw [h.cursor, h.furthest]
  unfold State.recordFailure
  rw [hmuted]
  by_cases hm : (s.muted || decide (s.cursor.offset < s.furthest.offset)) = true
  · rw [if_pos hm, if_pos hm]
    exact h
  · rw [if_neg hm, if_neg hm]
    by_cases hf : s.furthest.offset < s.cursor.offset
    · rw [if_pos hf, if_pos (hfurther.mpr hf)]
      have he : [k.right[id']?] = [k.left[id]?] := congrArg (· :: []) hi
      exact { h with furthest := h.cursor, expected := he }
    · rw [if_neg hf, if_neg (mt hfurther.mp hf)]
      have he : (id' :: t.expected).map (k.right[·]?) = (id :: s.expected).map (k.left[·]?) := by
        rw [List.map_cons, List.map_cons, hi, h.expected]
      exact { h with expected := he }

end State

/-- The runs have ended alike, unless the first one is excused. -/
def Agree (k : Comparison α ε) (r r' : Outcome ε β × State σ α) : Prop :=
  (∃ e, r.1 = .aborted e ∧ k.Excused e) ∨ r'.1 = r.1 ∧ r.2.Alike k r'.2

/-- What is made of two runs that agree agrees, if it passes errors on. -/
theorem Agree.elim {r r' : Outcome ε β × State σ α} {q q' : Outcome ε γ × State σ α}
    (h : Agree k r r') (hx : ∀ e, r.1 = .aborted e → q.1 = .aborted e)
    (hq : r'.1 = r.1 → r.2.Alike k r'.2 → Agree k q q') : Agree k q q' := by
  rcases h with ⟨e, he, hk⟩ | ⟨ho, hs⟩
  · exact Or.inl ⟨e, hx e he, hk⟩
  · exact hq ho hs

/-- From states that agree, the steps end alike. -/
def Lockstep (k : Comparison α ε) (m m' : Step σ α ε β) : Prop :=
  ∀ s t : State σ α, s.Alike k t → Agree k (m s) (m' t)

/-- What the first step does is done by the second one, unless the first one is excused. -/
theorem Lockstep.follow {m m' : Step σ α ε β} (hm : Lockstep k m m') {s t s' : State σ α}
    {o : Outcome ε β} (hst : s.Alike k t) (h : m s = (o, s')) :
    (∃ e, o = .aborted e ∧ k.Excused e) ∨ ∃ t', m' t = (o, t') ∧ s'.Alike k t' := by
  have hr := hm s t hst
  rw [h] at hr
  rcases hr with hx | ⟨ho, hs'⟩
  · exact Or.inl hx
  · exact Or.inr ⟨(m' t).2, Prod.ext ho rfl, hs'⟩

namespace Matcher

variable {m m' : Matcher σ α ε} {id id' : ExpectationId}

theorem fail_agree {s t : State σ α} (h : s.Alike k t) (hi : k.right[id']? = k.left[id]?) :
    Agree k (fail id s : Outcome ε (Value α) × State σ α) (fail id' t) :=
  Or.inr ⟨rfl, h.recordFailure hi⟩

theorem literal_lockstep (matcher : LiteralMatcher) (hi : k.right[id']? = k.left[id]?) :
    Lockstep k (literal matcher id : Matcher σ α ε) (literal matcher id') := by
  intro s t h
  unfold literal
  rw [h.cursor]
  cases hm : matcher.matchAt s.cursor with
  | none => exact fail_agree h hi
  | some stop =>
    have hw := k.within_of_reaches s.cursor stop h.within (LiteralMatcher.reaches_of_matchAt hm)
    exact Or.inr ⟨rfl, { h with within := hw, cursor := rfl }⟩

theorem char_lockstep (accepts : Char → Bool) (hi : k.right[id']? = k.left[id]?) :
    Lockstep k (char accepts id : Matcher σ α ε) (char accepts id') := by
  intro s t h
  unfold char
  rw [h.cursor]
  cases s.cursor.peek with
  | none => exact fail_agree h hi
  | some c =>
    dsimp only
    by_cases ha : accepts c = true
    · rw [if_pos ha, if_pos ha]
      have hw := k.within_of_reaches s.cursor _ h.within s.cursor.reaches_next
      exact Or.inr ⟨rfl, { h with within := hw, cursor := rfl }⟩
    · rw [if_neg ha, if_neg ha]
      exact fail_agree h hi

theorem isolate_lockstep (hm : Lockstep k m m') : Lockstep k (isolate m) (isolate m') := by
  intro s t h
  exact (hm s t h).elim (fun e he => he) fun ho hs => Or.inr ⟨ho, { hs with scope := h.scope }⟩

theorem text_lockstep (f : String → Value α → Value α) (hm : Lockstep k m m') :
    Lockstep k (mapValue f (isolate m)) (mapValue f (isolate m')) := by
  intro s t h
  rcases he : m s with ⟨o, u⟩
  rw [mapValue_isolate_eq f he]
  obtain ⟨e, rfl, hk⟩ | ⟨u', he', hs⟩ := hm.follow h he
  · exact Or.inl ⟨e, rfl, hk⟩
  · have hresult : o.map (f (t.cursor.textTo u'.cursor)) =
        o.map (f (s.cursor.textTo u.cursor)) := by
      rw [h.cursor, hs.cursor]
    rw [mapValue_isolate_eq f he']
    exact Or.inr ⟨hresult, { hs with scope := h.scope }⟩

theorem labeled_lockstep (label : String) (hm : Lockstep k m m') :
    Lockstep k (labeled label m) (labeled label m') := by
  intro s t h
  rcases he : m s with ⟨o, u⟩
  rw [labeled_eq label he]
  obtain ⟨e, rfl, hk⟩ | ⟨u', he', hs⟩ := hm.follow h he
  · exact Or.inl ⟨e, rfl, hk⟩
  · rw [labeled_eq label he', h.scope]
    exact Or.inr ⟨rfl, { hs with scope := rfl }⟩

theorem named_lockstep (hi : k.right[id']? = k.left[id]?) (hm : Lockstep k m m') :
    Lockstep k (named id m) (named id' m') := by
  intro s t h
  rcases he : m { s with muted := true } with ⟨o, u⟩
  rw [named_eq id he]
  obtain ⟨e, rfl, hk⟩ | ⟨u', he', hs⟩ := hm.follow h.mute he
  · exact Or.inl ⟨e, rfl, hk⟩
  · have hback : ({ u with scope := s.scope, muted := s.muted } : State σ α).Alike k
        { u' with scope := t.scope, muted := t.muted } :=
      { hs with scope := h.scope, muted := h.muted }
    rw [named_eq id' he']
    cases o with
    | failed => exact fail_agree hback hi
    | matched value => exact Or.inr ⟨rfl, hback⟩
    | aborted e => exact Or.inr ⟨rfl, hback⟩

theorem optional_lockstep (hm : Lockstep k m m') : Lockstep k (optional m) (optional m') := by
  intro s t h
  rcases he : m s with ⟨o, u⟩
  rw [optional_eq he]
  obtain ⟨e, rfl, hk⟩ | ⟨u', he', hs⟩ := hm.follow h he
  · exact Or.inl ⟨e, rfl, hk⟩
  · rw [optional_eq he']
    exact Or.inr ⟨rfl, { hs with scope := h.scope }⟩

theorem lookahead_lockstep (negated : Bool) (hm : Lockstep k m m') :
    Lockstep k (lookahead negated m) (lookahead negated m') := by
  intro s t h
  rcases he : m { s with muted := true } with ⟨o, u⟩
  rw [lookahead_eq negated he]
  obtain ⟨e, rfl, hk⟩ | ⟨u', he', hs⟩ := hm.follow h.mute he
  · exact Or.inl ⟨e, rfl, hk⟩
  · rw [lookahead_eq negated he']
    exact Or.inr ⟨rfl, { hs with
      within := h.within, cursor := h.cursor, scope := h.scope, muted := h.muted }⟩

/-- Unless the rounds of the first run end in an excused error, the second run has the same ones. -/
theorem Rounds.lockstep (hm : Lockstep k m m') {bound : List Char} {s s' t : State σ α}
    {o : Outcome ε (List (Value α))} (h : Rounds m bound s o s') (hst : s.Alike k t) :
    (∃ e, o = .aborted e ∧ k.Excused e) ∨ ∃ t', Rounds m' bound t o t' ∧ s'.Alike k t' := by
  induction h generalizing t with
  | failed h =>
    obtain ⟨e, he, -⟩ | ⟨u, h', hu⟩ := hm.follow hst h
    · cases he
    · exact Or.inr ⟨_, .failed h', { hu with scope := hst.scope }⟩
  | aborted h =>
    obtain ⟨e, he, hk⟩ | ⟨u, h', hu⟩ := hm.follow hst h
    · exact Or.inl ⟨e, congrArg _ (Outcome.aborted.inj he), hk⟩
    · exact Or.inr ⟨_, .aborted h', { hu with scope := hst.scope }⟩
  | last h hend =>
    obtain ⟨e, he, -⟩ | ⟨u, h', hu⟩ := hm.follow hst h
    · cases he
    · exact Or.inr ⟨_, .last h' (by rwa [hu.cursor, hst.cursor]), { hu with scope := hst.scope }⟩
  | again h hmoved hrest ih =>
    obtain ⟨e, he, -⟩ | ⟨u, h', hu⟩ := hm.follow hst h
    · cases he
    · have hmoved' : u.cursor.offset ≠ t.cursor.offset := by rwa [hu.cursor, hst.cursor]
      obtain ⟨e, rfl, hk⟩ | ⟨t', hrest', ht'⟩ :=
        ih (t := { u with scope := t.scope }) { hu with scope := hst.scope }
      · exact Or.inl ⟨e, rfl, hk⟩
      · exact Or.inr ⟨t', .again h' hmoved' hrest', ht'⟩

theorem repeated_lockstep (needsOne : Bool) (hm : Lockstep k m m') :
    Lockstep k (repeated needsOne m) (repeated needsOne m') := by
  intro s t h
  obtain ⟨o, s', hrounds⟩ := exists_rounds m s.cursor.rest s
  rw [repeated_eq needsOne hrounds]
  obtain ⟨e, rfl, hk⟩ | ⟨t', hrounds', hs'⟩ := hrounds.lockstep hm h
  · exact Or.inl ⟨e, rfl, hk⟩
  · rw [← h.cursor] at hrounds'
    rw [repeated_eq needsOne hrounds']
    exact Or.inr ⟨rfl, hs'⟩

/-- A code block sees the same in both runs. -/
theorem callHost_lockstep {δ : Type} (kind : CallKind) (code : String) {start start' : Cursor}
    (hstart : start' = start) (value : Option (Value α))
    (run : String → CodeContext α → σ → Except (CodeError ε) δ × σ) :
    Lockstep k (callHost kind code start value run) (callHost kind code start' value run) := by
  intro s t h
  rcases hr : run code ⟨start, s.cursor, s.scope.reverse, value⟩ s.host with ⟨answer, memory⟩
  have hr' : run code ⟨start', t.cursor, t.scope.reverse, value⟩ t.host = (answer, memory) := by
    rw [hstart, h.cursor, h.scope, h.host, hr]
  have hcalls : ⟨kind, code, ⟨start', t.cursor, t.scope.reverse, value⟩⟩ :: t.calls =
      ⟨kind, code, ⟨start, s.cursor, s.scope.reverse, value⟩⟩ :: s.calls := by
    rw [hstart, h.cursor, h.scope, h.calls]
  simp only [callHost, hr, hr']
  cases answer with
  | ok result => exact Or.inr ⟨rfl, { h with calls := hcalls, host := rfl }⟩
  | error e =>
    refine Or.inr ⟨?_, { h with calls := hcalls, host := rfl }⟩
    rw [hstart, h.cursor, h.scope]

theorem action_lockstep (host : Host σ α ε) (code : String) (hm : Lockstep k m m') :
    Lockstep k (action host code m) (action host code m') := by
  refine isolate_lockstep fun s t h => ?_
  rcases he : m s with ⟨o, u⟩
  obtain ⟨e, rfl, hk⟩ | ⟨u', he', hs⟩ := hm.follow h he
  · exact Or.inl ⟨e, rfl, hk⟩
  · rw [he']
    cases o with
    | matched value =>
      exact callHost_lockstep .action code h.cursor (some value) host.action u u' hs
    | failed => exact Or.inr ⟨rfl, hs⟩
    | aborted e => exact Or.inr ⟨rfl, hs⟩

theorem predicate_lockstep (host : Host σ α ε) (negated : Bool) (code : String) :
    Lockstep k (predicate host negated code : Matcher σ α ε) (predicate host negated code) := by
  intro s t h
  unfold predicate
  rcases he : callHost .predicate code s.cursor none host.predicate s with ⟨o, u⟩
  obtain ⟨e, rfl, hk⟩ | ⟨u', he', hs⟩ :=
    (callHost_lockstep .predicate code h.cursor none host.predicate).follow h he
  · exact Or.inl ⟨e, rfl, hk⟩
  · rw [he']
    cases o <;> exact Or.inr ⟨rfl, hs⟩

end Matcher

namespace Operator

inductive Matches (k : Comparison α ε) : Operator → Operator → Prop where
  | same (operator : Operator) (hn : ∀ id, operator ≠ .named id) : Matches k operator operator
  | named (id id' : ExpectationId) (hi : k.right[id']? = k.left[id]?) :
      Matches k (.named id) (.named id')

theorem run_lockstep (host : Host σ α ε) {operator operator' : Operator}
    (ho : operator.Matches k operator') {m m' : Matcher σ α ε} (hm : Lockstep k m m') :
    Lockstep k (operator.run host m) (operator'.run host m') := by
  cases ho with
  | named id id' hi => exact Matcher.named_lockstep hi hm
  | same operator hn =>
    cases operator with
    | named id => exact absurd rfl (hn id)
    | labeled label => exact Matcher.labeled_lockstep label hm
    | action code => exact Matcher.action_lockstep host code hm
    | text => exact Matcher.text_lockstep (fun text _ => .str text) hm
    | optional => exact Matcher.optional_lockstep hm
    | zeroOrMore => exact Matcher.repeated_lockstep false hm
    | oneOrMore => exact Matcher.repeated_lockstep true hm
    | group => exact Matcher.isolate_lockstep hm
    | followedBy => exact Matcher.lookahead_lockstep false hm
    | notFollowedBy => exact Matcher.lookahead_lockstep true hm

end Operator

namespace Node

variable (host : Host σ α ε) {call call' : RuleId → Matcher σ α ε} {node node' : Node}
  {nodes nodes' : List Node}

theorem sequence_lockstep (hn : Lockstep k (node.run host call) (node'.run host call'))
    (hs : Lockstep k ((Node.sequence nodes).run host call)
      ((Node.sequence nodes').run host call')) :
    Lockstep k ((Node.sequence (node :: nodes)).run host call)
      ((Node.sequence (node' :: nodes')).run host call') := by
  intro s t h
  rcases he : node.run host call s with ⟨o, u⟩
  rw [run_sequence_cons host call node nodes he]
  obtain ⟨e, rfl, hk⟩ | ⟨u', he', hu⟩ := hn.follow h he
  · exact Or.inl ⟨e, rfl, hk⟩
  rw [run_sequence_cons host call' node' nodes' he']
  have hback {v v' : State σ α} (hv : v.Alike k v') :
      Agree k ((.failed : Outcome ε (Value α)), { v with cursor := s.cursor, scope := s.scope })
        (.failed, { v' with cursor := t.cursor, scope := t.scope }) :=
    Or.inr ⟨rfl, { hv with within := h.within, cursor := h.cursor, scope := h.scope }⟩
  cases o with
  | failed => exact hback hu
  | aborted e => exact Or.inr ⟨rfl, hu⟩
  | matched value =>
    dsimp only
    rcases hw : (Node.sequence nodes).run host call u with ⟨o₁, v⟩
    obtain ⟨e, rfl, hk⟩ | ⟨v', hw', hv⟩ := hs.follow hu hw
    · exact Or.inl ⟨e, rfl, hk⟩
    · rw [hw']
      cases o₁ with
      | failed => exact hback hv
      | matched values => exact Or.inr ⟨rfl, hv⟩
      | aborted e => exact Or.inr ⟨rfl, hv⟩

theorem choice_lockstep (hn : Lockstep k (node.run host call) (node'.run host call'))
    (hs : Lockstep k ((Node.choice nodes).run host call) ((Node.choice nodes').run host call')) :
    Lockstep k ((Node.choice (node :: nodes)).run host call)
      ((Node.choice (node' :: nodes')).run host call') := by
  intro s t h
  rcases he : node.run host call s with ⟨o, u⟩
  rw [run_choice_cons host call node nodes he]
  obtain ⟨e, rfl, hk⟩ | ⟨u', he', hu⟩ := hn.follow h he
  · exact Or.inl ⟨e, rfl, hk⟩
  rw [run_choice_cons host call' node' nodes' he']
  cases o with
  | failed =>
    exact hs { u with scope := s.scope } { u' with scope := t.scope } { hu with scope := h.scope }
  | matched value => exact Or.inr ⟨rfl, { hu with scope := h.scope }⟩
  | aborted e => exact Or.inr ⟨rfl, { hu with scope := h.scope }⟩

end Node

namespace State

variable {p q : Program} {found found' : CompiledRule} {s t : State σ α}

theorem trace_events (p : Program) (kind : TraceKind) (found : CompiledRule) (start stop : Cursor)
    (s : State σ α) : (s.trace p kind found start stop).events =
      if p.traced then ⟨kind, found.name, start.spanTo stop⟩ :: s.events else s.events := by
  unfold State.trace
  split <;> rfl

theorem Alike.trace (h : s.Alike k t) (ht : k.traced → q.traced = p.traced)
    (hn : k.traced → found'.name = found.name) (kind : TraceKind) {start start' stop stop' : Cursor}
    (hstart : start' = start) (hstop : stop' = stop) :
    (s.trace p kind found start stop).Alike k (t.trace q kind found' start' stop') := by
  have hevents (hk : k.traced) : (t.trace q kind found' start' stop').events =
      (s.trace p kind found start stop).events := by
    rw [trace_events, trace_events, ht hk, hn hk, hstart, hstop, h.events hk]
  obtain ⟨events, he⟩ := trace_eq p kind found start stop s
  obtain ⟨events', he'⟩ := trace_eq q kind found' start' stop' t
  rw [he, he'] at hevents ⊢
  exact { h with events := hevents }

theorem Alike.leave (h : s.Alike k t) (ht : k.traced → q.traced = p.traced)
    (hn : k.traced → found'.name = found.name) {start start' : Cursor} (hstart : start' = start)
    (result : Option (Value α)) :
    Agree k (s.leave p found start result) (t.leave q found' start' result) := by
  cases result with
  | some value => exact Or.inr ⟨rfl, h.trace ht hn .matched hstart h.cursor⟩
  | none => exact Or.inr ⟨rfl, h.trace ht hn .failed hstart hstart⟩

end State

/-- Entered from states that agree, a rule that is evaluated in both runs is left alike if its body
keeps in step and what is known then goes together. -/
theorem Program.evaluate_agree {p q : Program} {host : Host σ α ε}
    {call call' : RuleId → Matcher σ α ε}
    {id id' : RuleId} {found found' : CompiledRule} (ht : k.traced → q.traced = p.traced)
    (hn : k.traced → found'.name = found.name) {s t : State σ α} (h : s.Alike k t)
    (hbody : Lockstep k (found.node.run host call) (found'.node.run host call'))
    (hmemo : ∀ (u u' : State σ α) (result : Option (Value α)),
      found.node.run host call { s with scope := [] } = (Outcome.ofOption result, u) →
      u.Alike k u' → k.Known (({ u with scope := s.scope } : State σ α).remember p id s.cursor
        result).memo (({ u' with scope := t.scope } : State σ α).remember q id' t.cursor
          result).memo) :
    Agree k (p.evaluate host call id found s) (q.evaluate host call' id' found' t) := by
  rcases he : found.node.run host call { s with scope := [] } with ⟨o, u⟩
  obtain ⟨e, rfl, hk⟩ | ⟨u', he', hu⟩ :=
    hbody.follow (s := { s with scope := [] }) (t := { t with scope := [] })
      { h with scope := rfl } he
  · rw [evaluate_aborted p host call id found he]
    exact Or.inl ⟨e, rfl, hk⟩
  obtain ⟨result, rfl⟩ | ⟨e, rfl⟩ := o.ended_or_aborted
  · rw [evaluate_ended p host call id found he, evaluate_ended q host call' id' found' he']
    have hm := hmemo u u' result he hu
    refine State.Alike.leave ?_ ht hn h.cursor result
    rw [State.remember_eq, State.remember_eq] at hm ⊢
    exact { hu with scope := h.scope, memo := hm }
  · rw [evaluate_aborted p host call id found he, evaluate_aborted q host call' id' found' he']
    exact Or.inr ⟨rfl, { hu with scope := h.scope }⟩

namespace Program

variable {p q : Program} (host : Host σ α ε) {id id' : RuleId} {found found' : CompiledRule}
  {s t : State σ α}

/-- A result that is kept in both runs is given in both, whatever their depths. -/
theorem hit_agree (hf : p.rules[id]? = some found) (hf' : q.rules[id']? = some found')
    (ht : k.traced → q.traced = p.traced) (hn : k.traced → found'.name = found.name)
    (h : s.Alike k t) {result : RuleResult α} (hm : s.memoized? p id = some result)
    (hm' : t.memoized? q id' = some result) (hw : k.Within result.stop)
    (limit depth depth' : Nat) :
    Agree k (p.invoke host limit depth id s) (q.invoke host limit depth' id' t) := by
  rw [invoke_hit p host limit hf hm, invoke_hit q host limit hf' hm']
  have hs := h.trace ht hn .enter h.cursor h.cursor
  refine State.Alike.leave ?_ ht hn h.cursor result.value
  exact { hs with within := hw, cursor := rfl }

end Program

/-- States that agree report the same failure. -/
theorem State.Alike.mismatch {p q : Program} {s t : State σ α} (h : s.Alike k t)
    (hp : k.left = p.expectations) (hq : k.right = q.expectations) :
    t.mismatch q = s.mismatch p := by
  have hexpected : t.expected.filterMap (q.expectations[·]?) =
      s.expected.filterMap (p.expectations[·]?) := by
    calc
      t.expected.filterMap (q.expectations[·]?) =
          (t.expected.map (k.right[·]?)).filterMap id := by rw [List.filterMap_map, hq]; rfl
      _ = (s.expected.map (k.left[·]?)).filterMap id := by rw [h.expected]
      _ = s.expected.filterMap (p.expectations[·]?) := by rw [List.filterMap_map, hp]; rfl
  unfold State.mismatch
  rw [List.filterMap_reverse, List.filterMap_reverse, hexpected, h.furthest]

/-- Two programs whose start rules keep in step parse the input alike. -/
theorem Program.parse_agree {p q : Program} (hp : k.left = p.expectations)
    (hq : k.right = q.expectations)
    (hend : q.expectations[q.endExpectation]? = p.expectations[p.endExpectation]?)
    (hinit : q.initializer = p.initializer) {host : Host σ α ε} (memory : σ) (input : String)
    {how : ParseOptions} {start start' : RuleId} (hs : p.findStart how.startRule = .ok start)
    (hs' : q.findStart how.startRule = .ok start') (hwithin : k.Within (.ofText input))
    (hknown : k.Known .empty .empty)
    (hinvoke : ∀ s t : State σ α, s.Alike k t → s.memo = .empty → t.memo = .empty →
      Agree k (p.invoke host how.maxDepth how.maxDepth start s)
        (q.invoke host how.maxDepth how.maxDepth start' t)) :
    (∃ e, (p.parse host memory input how).outcome = .error e ∧ k.Excused e) ∨
      (q.parse host memory input how).outcome = (p.parse host memory input how).outcome ∧
      (q.parse host memory input how).calls = (p.parse host memory input how).calls ∧
      (q.parse host memory input how).host = (p.parse host memory input how).host ∧
      (k.traced →
        (q.parse host memory input how).events = (p.parse host memory input how).events) := by
  have hinitial (memory : σ) : (State.initial input memory : State σ α).Alike k
      (.initial input memory) :=
    ⟨hwithin, rfl, rfl, rfl, rfl, rfl, hknown, fun _ => rfl, rfl, rfl⟩
  have hrun : Agree k (p.runFrom host how.maxDepth start (.initial input memory))
      (q.runFrom host how.maxDepth start' (.initial input memory)) := by
    cases hi : p.initializer with
    | none =>
      rw [runFrom_plain hi, runFrom_plain (hinit.trans hi)]
      exact hinvoke _ _ (hinitial memory) rfl rfl
    | some code =>
      rcases hc : host.prepare code ⟨.ofText input, .ofText input, [], none⟩ memory with
        ⟨answer | ⟨⟩, memory'⟩
      · rw [runFrom_refused hi hc, runFrom_refused (hinit.trans hi) hc]
        exact Or.inr ⟨rfl, { hinitial memory' with calls := rfl }⟩
      · rw [runFrom_prepared hi hc, runFrom_prepared (hinit.trans hi) hc]
        exact hinvoke _ _ { hinitial memory' with calls := rfl } rfl rfl
  rcases he : p.runFrom host how.maxDepth start (.initial input memory) with ⟨o, s⟩
  rcases he' : q.runFrom host how.maxDepth start' (.initial input memory) with ⟨o', t⟩
  rw [he, he'] at hrun
  rw [parse_eq hs he, parse_eq hs' he']
  rcases hrun with ⟨e, rfl, hx⟩ | ⟨rfl, h⟩
  · exact Or.inl ⟨e, rfl, hx⟩
  · refine Or.inr ⟨?_, congrArg List.reverse h.calls, h.host, fun hk =>
      congrArg List.reverse (h.events hk)⟩
    have hcursor : t.cursor = s.cursor := h.cursor
    cases o' with
    | failed => exact congrArg (fun e => Except.error (ParseError.refused e)) (h.mismatch hp hq)
    | aborted e => rfl
    | matched value =>
      have hend' : k.right[q.endExpectation]? = k.left[p.endExpectation]? := by rw [hp, hq, hend]
      have hm := (h.recordFailure hend').mismatch hp hq
      dsimp only [answer] at hm ⊢
      rw [hcursor, hm]

end Peg
