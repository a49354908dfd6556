import Peg.Proofs.Growth
import Peg.Proofs.NewCalls

/-! Runs with different limits of nested rules. The one with the lower limit is the same as the
other one, unless it is cut off at its limit; and then the other one goes on from there, and only
notes more events. -/
namespace Peg

variable {σ α ε β γ : Type} {text : Cursor} {Kept : RuleId → Cursor → RuleResult α → Prop}

/-- What a run comes to that is cut off at the limit of nested rules, if it is, in terms of what it
would come to otherwise. -/
def CutOff (r r' : Outcome ε β × State σ α) : Prop :=
  r' = r ∨ (∃ limit offset, r.1 = .aborted (.nestingLimit limit offset)) ∧
    r.2.events <:+ r'.2.events

/-- What is put together from a part is cut off if the part is, unless it is cut off further on. -/
theorem CutOff.extend {r r' : Outcome ε β × State σ α} {u u' : Outcome ε γ × State σ α}
    (h : CutOff r r') (ha : ∀ e, r.1 = .aborted e → u.1 = .aborted e ∧ u.2.events = r.2.events)
    (hg : r'.2.events <:+ u'.2.events) (hu : r' = r → CutOff u u') : CutOff u u' := by
  rcases h with he | ⟨⟨limit, offset, he⟩, hevents⟩
  · exact hu he
  · obtain ⟨ho, ht⟩ := ha _ he
    exact Or.inr ⟨⟨limit, offset, ho⟩, ht ▸ hevents.trans hg⟩

/-- The first step is the second one, but may be cut off. -/
def Truncates (text : Cursor) (Kept : RuleId → Cursor → RuleResult α → Prop)
    (m m' : Step σ α ε β) : Prop :=
  ∀ s : State σ α, s.Sound text Kept → CutOff (m s) (m' s)

namespace Operator

variable (host : Host σ α ε) {operator : Operator}

theorem run_truncates (hz : operator ≠ .zeroOrMore) (ho : operator ≠ .oneOrMore)
    {m m' : Matcher σ α ε} (hm : Truncates text Kept m m') :
    Truncates text Kept (operator.run host m) (operator.run host m') := by
  intro s hs
  have hs' : (operator.around s).Sound text Kept := by
    cases operator <;> exact ⟨hs.inText, hs.kept⟩
  rw [run_once host hz ho m, run_once host hz ho m']
  have hrun (r : Outcome ε (Value α) × State σ α) :=
    run_trail host hz ho (m := fun _ => r) (s := s) rfl
  have hevents (r : Outcome ε (Value α) × State σ α) :
      (operator.run host (fun _ => r) s).2.events = r.2.events := congrArg Prod.snd (hrun r).1
  refine (hm _ hs').extend (fun e he => ⟨(hrun _).2 e he, hevents _⟩) ?_
    fun he => Or.inl (by rw [he])
  rw [hevents]

end Operator

namespace Matcher

variable {m m' : Matcher σ α ε}

/-- The rounds are the same up to the one that is cut off, if one is. -/
theorem Rounds.cutOff (hr : Restores text Kept m')
    (hg : Keeps text Kept Growth.ofEvents.contract 0 m') (hm : Truncates text Kept m m')
    {bound : List Char} {s s' : State σ α} {o : Outcome ε (List (Value α))}
    (h : Rounds m bound s o s') (hs : s.Sound text Kept) :
    CutOff (o, s') (repeatWithin m' bound s) := by
  induction h with
  | @failed bound s t h =>
    have hround : CutOff (.failed, t) (m' s) := h ▸ hm s hs
    exact hround.extend (fun _ he => by cases he) (repeatWithin_grows hr hg bound hs)
      fun he => Or.inl (Rounds.failed he).repeatWithin_eq
  | @aborted bound s t e h =>
    have hround : CutOff (.aborted e, t) (m' s) := h ▸ hm s hs
    exact hround.extend (fun _ he => by cases he; exact ⟨rfl, rfl⟩)
      (repeatWithin_grows hr hg bound hs) fun he => Or.inl (Rounds.aborted he).repeatWithin_eq
  | @last bound s t value h hend =>
    have hround : CutOff (.matched value, t) (m' s) := h ▸ hm s hs
    exact hround.extend (fun _ he => by cases he) (repeatWithin_grows hr hg bound hs)
      fun he => Or.inl (Rounds.last he hend).repeatWithin_eq
  | @again c bound s t s' value o h hmoved hrest ih =>
    have hround : CutOff (.matched value, t) (m' s) := h ▸ hm s hs
    have hpermits := hr s hs
    refine hround.extend (fun _ he => by cases he) (repeatWithin_grows hr hg _ hs) fun he => ?_
    rw [he] at hpermits
    obtain ⟨o', u, hrest'⟩ := exists_rounds m' bound { t with scope := s.scope }
    have hrounds := ih ⟨hpermits.1.inText, hpermits.1.kept⟩
    rw [hrest'.repeatWithin_eq] at hrounds
    rw [(Rounds.again he hmoved hrest').repeatWithin_eq]
    exact hrounds.extend (fun e ho => ⟨Outcome.map_eq_aborted.mpr ho, rfl⟩) List.suffix_rfl
      fun heq => Or.inl (by cases heq; rfl)

theorem repeated_truncates (needsOne : Bool) (hr : Restores text Kept m')
    (hg : Keeps text Kept Growth.ofEvents.contract 0 m') (hm : Truncates text Kept m m') :
    Truncates text Kept (repeated needsOne m) (repeated needsOne m') := by
  intro s hs
  obtain ⟨o, t, h⟩ := exists_rounds m s.cursor.rest s
  obtain ⟨o', t', h'⟩ := exists_rounds m' s.cursor.rest s
  have hrounds := h.cutOff hr hg hm hs
  rw [h'.repeatWithin_eq] at hrounds
  rw [repeated_eq needsOne h, repeated_eq needsOne h']
  exact hrounds.extend (fun e ho => ⟨by cases ho; rfl, rfl⟩) List.suffix_rfl
    fun heq => Or.inl (by cases heq; rfl)

end Matcher

namespace Node

variable (host : Host σ α ε) {call call' : RuleId → Matcher σ α ε}

theorem sequence_truncates (hr : ∀ id, Restores text Kept (call' id))
    (hg : ∀ id, Keeps text Kept Growth.ofEvents.contract 0 (call' id)) (nodes : List Node)
    (ih : ∀ node ∈ nodes, Truncates text Kept (node.run host call) (node.run host call')) :
    Truncates text Kept ((Node.sequence nodes).run host call)
      ((Node.sequence nodes).run host call') := by
  induction nodes with
  | nil =>
    intro s hs
    rw [run_sequence_nil, run_sequence_nil]
    exact Or.inl rfl
  | cons node nodes ih' =>
    intro s hs
    have hpermits := run_restores host hr node s hs
    refine (ih node List.mem_cons_self s hs).extend (fun e he => ?_) ?_ fun he => ?_
    · rcases hv : node.run host call s with ⟨o, t⟩
      rw [hv] at he
      cases he
      rw [run_sequence_cons host call node nodes hv]
      exact ⟨rfl, rfl⟩
    · exact sequence_grows host hr hg node nodes hs
    · rw [he] at hpermits
      rcases hv : node.run host call s with ⟨o, t⟩
      rw [hv] at he hpermits
      rw [run_sequence_cons host call node nodes hv, run_sequence_cons host call' node nodes he]
      cases o with
      | failed | aborted => exact Or.inl rfl
      | matched value =>
        refine (ih' (fun n hm => ih n (List.mem_cons_of_mem _ hm)) t hpermits.1).extend
          (fun e he => ?_) ?_ fun he => Or.inl (by rw [he])
        · rcases hw : (Node.sequence nodes).run host call t with ⟨o, u⟩
          rw [hw] at he
          cases he
          exact ⟨rfl, rfl⟩
        · rcases (Node.sequence nodes).run host call' t with ⟨_ | _ | _, u⟩ <;>
            exact List.suffix_rfl

theorem choice_truncates (hr : ∀ id, Restores text Kept (call' id))
    (hg : ∀ id, Keeps text Kept Growth.ofEvents.contract 0 (call' id)) (nodes : List Node)
    (ih : ∀ node ∈ nodes, Truncates text Kept (node.run host call) (node.run host call')) :
    Truncates text Kept ((Node.choice nodes).run host call)
      ((Node.choice nodes).run host call') := by
  induction nodes with
  | nil =>
    intro s hs
    rw [run_choice_nil, run_choice_nil]
    exact Or.inl rfl
  | cons node nodes ih' =>
    intro s hs
    have hpermits := run_restores host hr node s hs
    refine (ih node List.mem_cons_self s hs).extend (fun e he => ?_) ?_ fun he => ?_
    · rcases hv : node.run host call s with ⟨o, t⟩
      rw [hv] at he
      cases he
      rw [run_choice_cons host call node nodes hv]
      exact ⟨rfl, rfl⟩
    · exact choice_grows host hr hg node nodes hs
    · rw [he] at hpermits
      rcases hv : node.run host call s with ⟨o, t⟩
      rw [hv] at he hpermits
      rw [run_choice_cons host call node nodes hv, run_choice_cons host call' node nodes he]
      cases o with
      | matched | aborted => exact Or.inl rfl
      | failed =>
        exact ih' (fun n hm => ih n (List.mem_cons_of_mem _ hm)) { t with scope := s.scope }
          ⟨hpermits.1.inText, hpermits.1.kept⟩

/-- A node may be cut off where the rules may be that it invokes. -/
theorem run_truncates (hr : ∀ id, Restores text Kept (call' id))
    (hg : ∀ id, Keeps text Kept Growth.ofEvents.contract 0 (call' id))
    (hc : ∀ id, Truncates text Kept (call id) (call' id)) (node : Node) :
    Truncates text Kept (node.run host call) (node.run host call') := by
  induction node using Node.induct with
  | literal | charClass | any | predicate =>
    intro s hs
    rw [run, run]
    exact Or.inl rfl
  | ruleRef id => rw [run, run]; exact hc id
  | sequence nodes ih => exact sequence_truncates host hr hg nodes ih
  | choice nodes ih => exact choice_truncates host hr hg nodes ih
  | wrapped operator body ih =>
    have hr' := run_restores host hr body
    have hg' := run_keeps_of_all host hr hg body
    rw [run, run]
    cases operator with
    | zeroOrMore => exact Matcher.repeated_truncates false hr' hg' ih
    | oneOrMore => exact Matcher.repeated_truncates true hr' hg' ih
    | _ => exact Operator.run_truncates host (by rintro ⟨⟩) (by rintro ⟨⟩) ih

end Node

namespace Program

variable {program outer inner : Program} {host : Host σ α ε} {id : RuleId} {rule : CompiledRule}

theorem trace_grows {events : List TraceEvent} {s : State σ α} (h : events <:+ s.events)
    (kind : TraceKind) (start stop : Cursor) :
    events <:+ (s.trace program kind rule start stop).events := by
  unfold State.trace
  split
  · exact h.trans (List.suffix_cons _ _)
  · exact h

theorem leave_grows {events : List TraceEvent} {s : State σ α} (h : events <:+ s.events)
    (start : Cursor) (result : Option (Value α)) :
    events <:+ (s.leave program rule start result : Outcome ε (Value α) × State σ α).2.events := by
  cases result with
  | some value => exact trace_grows h .matched start s.cursor
  | none => exact trace_grows h .failed start start

theorem enter_grows {body : CompiledRule → Matcher σ α ε}
    (hb : ∀ rule, Keeps text Kept Growth.ofEvents.contract 0 (body rule)) :
    Keeps text Kept Growth.ofEvents.contract 0 (program.enter id body) := by
  intro s hs _
  unfold enter
  cases hr : program.rules[id]? with
  | none => exact List.suffix_rfl
  | some rule =>
    have htrace : s.events <:+ (s.trace program .enter rule s.cursor s.cursor).events :=
      trace_grows List.suffix_rfl .enter s.cursor s.cursor
    obtain ⟨events, he⟩ := State.trace_eq program .enter rule s.cursor s.cursor s
    rw [he] at htrace
    dsimp only
    rw [he]
    split
    · refine leave_grows ?_ _ _
      exact htrace
    · refine htrace.trans ?_
      exact hb rule { s with events := events } ⟨hs.inText, hs.kept⟩ (Nat.zero_le _)

theorem enter_truncates {body body' : CompiledRule → Matcher σ α ε}
    (hb : ∀ rule, Truncates text Kept (body rule) (body' rule)) :
    Truncates text Kept (program.enter id body) (program.enter id body') := by
  intro s hs
  unfold enter
  cases hr : program.rules[id]? with
  | none => exact Or.inl rfl
  | some rule =>
    obtain ⟨events, he⟩ := State.trace_eq program .enter rule s.cursor s.cursor s
    dsimp only
    rw [he]
    split
    · exact Or.inl rfl
    · exact hb rule _ ⟨hs.inText, hs.kept⟩

variable {call call' : RuleId → Matcher σ α ε}

/-- Behind the body of a rule, only more events follow. -/
theorem evaluate_grows_body (s : State σ α) :
    (rule.node.run host call { s with scope := [] }).2.events <:+
      (program.evaluate host call id rule s).2.events := by
  rcases hb : rule.node.run host call { s with scope := [] } with ⟨o, t⟩
  obtain ⟨result, rfl⟩ | ⟨e, rfl⟩ := o.ended_or_aborted
  · have hkept : t.events <:+
        (({ t with scope := s.scope } : State σ α).remember program id s.cursor result).events := by
      rw [State.remember_eq]
    rw [evaluate_ended program host call id rule hb]
    exact leave_grows hkept _ _
  · rw [evaluate_aborted program host call id rule hb]

theorem evaluate_grows (hr : ∀ id, Restores text Kept (call id))
    (hg : ∀ id, Keeps text Kept Growth.ofEvents.contract 0 (call id)) :
    Keeps text Kept Growth.ofEvents.contract 0 (program.evaluate host call id rule) := by
  intro s hs _
  have h := rule.node.run_keeps_of_all host hr hg { s with scope := [] } ⟨hs.inText, hs.kept⟩
    (Nat.zero_le _)
  exact List.IsSuffix.trans h (evaluate_grows_body s)

theorem evaluate_truncates (hr : ∀ id, Restores text Kept (call' id))
    (hg : ∀ id, Keeps text Kept Growth.ofEvents.contract 0 (call' id))
    (hc : ∀ id, Truncates text Kept (call id) (call' id)) :
    Truncates text Kept (program.evaluate host call id rule)
      (program.evaluate host call' id rule) := by
  intro s hs
  refine (Node.run_truncates host hr hg hc rule.node { s with scope := [] }
    ⟨hs.inText, hs.kept⟩).extend (fun e he => ?_) (evaluate_grows_body s) fun he => Or.inl ?_
  · rcases hb : rule.node.run host call { s with scope := [] } with ⟨o, t⟩
    rw [hb] at he
    cases he
    rw [evaluate_aborted program host call id rule hb]
    exact ⟨rfl, rfl⟩
  · unfold evaluate
    rw [he]

/-- The rules are invoked as `invoke` does, where what is noted of those that are run is up to
`note`. -/
structure Invokes (outer inner : Program) (host : Host σ α ε)
    (note : CompiledRule → State σ α → State σ α) (run : Nat → Nat → RuleId → Matcher σ α ε) :
    Prop where
  zero : ∀ limit id, run limit 0 id = outer.enter id fun rule s =>
    (.aborted (.nestingLimit limit s.cursor.offset), note rule s)
  succ : ∀ limit depth id, run limit (depth + 1) id = outer.enter id fun rule s =>
    inner.evaluate host (run limit depth) id rule (note rule s)
  notes : ∀ rule s, ∃ events, note rule s = { s with events := events ++ s.events }
  restores : ∀ text limit depth id,
    Restores text (RuleResult.Lawful fun _ => false) (run limit depth id)

theorem invokes_invoke (program : Program) (host : Host σ α ε) :
    Invokes program program host (fun _ s => s) (program.invoke host) where
  zero _ _ := rfl
  succ _ _ _ := rfl
  notes _ _ := ⟨[], rfl⟩
  restores _ limit depth id := invoke_restores program host limit depth id

theorem invokes_invokeNew (program : Program) (host : Host σ α ε) :
    Invokes { program with traced := false } { program with traced := true } host
      (fun rule s => s.trace { program with traced := true } .enter rule s.cursor s.cursor)
      (program.invokeNew host) where
  zero _ _ := rfl
  succ _ _ _ := rfl
  notes rule s := ⟨[_], trace_traced rfl .enter rule s.cursor s.cursor s⟩
  restores _ limit depth id := invokeNew_restores program host limit depth id

namespace Invokes

variable {note : CompiledRule → State σ α → State σ α} {run : Nat → Nat → RuleId → Matcher σ α ε}

theorem grows (h : Invokes outer inner host note run) (limit depth : Nat) (id : RuleId) :
    Keeps text (RuleResult.Lawful fun _ => false) Growth.ofEvents.contract 0
      (run limit depth id) := by
  induction depth generalizing id with
  | zero =>
    rw [h.zero]
    refine enter_grows fun rule s _ _ => ?_
    obtain ⟨events, he⟩ := h.notes rule s
    exact he ▸ List.suffix_append events s.events
  | succ depth ih =>
    rw [h.succ]
    refine enter_grows fun rule s hs _ => ?_
    obtain ⟨events, he⟩ := h.notes rule s
    have hnote : s.events <:+ (note rule s).events := he ▸ List.suffix_append events s.events
    refine hnote.trans ?_
    exact evaluate_grows (h.restores text limit depth) ih (note rule s)
      (he ▸ ⟨hs.inText, hs.kept⟩) (Nat.zero_le _)

/-- With a lower limit, the same is done unless it is cut off. -/
theorem truncates (h : Invokes outer inner host note run) (limit limit' : Nat) {depth depth' : Nat}
    (hd : depth ≤ depth') (id : RuleId) :
    Truncates text (RuleResult.Lawful fun _ => false) (run limit depth id)
      (run limit' depth' id) := by
  -- Both depths go down by one with each rule, so that the first run is the one to be cut off.
  induction depth generalizing depth' id with
  | zero =>
    rw [h.zero]
    cases depth' with
    | zero =>
      rw [h.zero]
      exact enter_truncates fun rule s _ => Or.inr ⟨⟨_, _, rfl⟩, List.suffix_rfl⟩
    | succ depth' =>
      rw [h.succ]
      refine enter_truncates fun rule s hs => Or.inr ⟨⟨_, _, rfl⟩, ?_⟩
      obtain ⟨events, he⟩ := h.notes rule s
      exact evaluate_grows (h.restores text limit' depth') (h.grows limit' depth') (note rule s)
        (he ▸ ⟨hs.inText, hs.kept⟩) (Nat.zero_le _)
  | succ depth ih =>
    cases depth' with
    | zero => exact absurd hd (Nat.not_succ_le_zero depth)
    | succ depth' =>
      rw [h.succ, h.succ]
      refine enter_truncates fun rule s hs => ?_
      obtain ⟨events, he⟩ := h.notes rule s
      exact evaluate_truncates (h.restores text limit' depth') (h.grows limit' depth')
        (ih (Nat.le_of_succ_le_succ hd)) (note rule s) (he ▸ ⟨hs.inText, hs.kept⟩)

end Invokes

/-- A parse with a lower limit may be cut off. -/
theorem runFrom_cutOff (program : Program) (host : Host σ α ε) {depth deeper : Nat}
    (hd : depth ≤ deeper) (start : RuleId) (input : String) (memory : σ) :
    CutOff (program.runFrom host depth start (.initial input memory))
      (program.runFrom host deeper start (.initial input memory)) := by
  unfold runFrom
  rcases runInitializer_cases program host input memory with ⟨memory', calls, hi⟩ |
    ⟨e, context, memory', calls, hi⟩
  · rw [hi]
    exact (invokes_invoke program host).truncates depth deeper hd start _
      (State.sound_initial input memory' calls)
  · rw [hi]
    exact Or.inl rfl

theorem runNew_cutOff (program : Program) (host : Host σ α ε) {depth deeper : Nat}
    (hd : depth ≤ deeper) (start : RuleId) (input : String) (memory : σ) :
    CutOff (program.runNew host depth start (.initial input memory))
      (program.runNew host deeper start (.initial input memory)) := by
  unfold runNew
  rcases runInitializer_cases program host input memory with ⟨memory', calls, hi⟩ |
    ⟨e, context, memory', calls, hi⟩
  · rw [hi]
    exact (invokes_invokeNew program host).truncates depth deeper hd start _
      (State.sound_initial input memory' calls)
  · rw [hi]
    exact Or.inl rfl

end Program
end Peg
