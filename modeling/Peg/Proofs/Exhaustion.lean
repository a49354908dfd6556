import Peg.Proofs.Adequacy

/-! Where nothing is derived, too many rules would have to be open. A node of which every reference
leads to a rule either has a derivation, or its run ends at the limit of nested rules. -/
namespace Peg

variable {σ α ε : Type}

namespace Node

mutual

def refs : Node → List RuleId
  | literal .. | charClass .. | any _ | predicate .. => []
  | ruleRef id => [id]
  | sequence nodes | choice nodes => refsOfAll nodes
  | wrapped _ body => body.refs

def refsOfAll : List Node → List RuleId
  | [] => []
  | node :: nodes => node.refs ++ refsOfAll nodes

end

theorem mem_refsOfAll {nodes : List Node} {id : RuleId} :
    id ∈ refsOfAll nodes ↔ ∃ node ∈ nodes, id ∈ node.refs := by
  induction nodes with
  | nil => simp only [refsOfAll, List.not_mem_nil, false_and, exists_false]
  | cons node nodes ih =>
    simp only [refsOfAll, List.mem_append, ih, List.mem_cons, exists_eq_or_imp]

end Node

/-- Every reference leads to a rule. -/
def Program.Closed (program : Program) : Prop :=
  ∀ (id : RuleId) (rule : CompiledRule), program.rules[id]? = some rule →
    ∀ ref ∈ rule.node.refs, ∃ found, program.rules[ref]? = some found

/-- At `c`, with the labels `env` and the host remembering `h`, the matcher ends at the limit of
nested rules. -/
def Exhausts (program : Program) (host : Host σ α ε) (text c : Cursor) (env : Scope α) (h : σ)
    (m : Matcher σ α ε) : Prop :=
  ∀ s : State σ α, s.Ready program host Eq text [] c env h →
    ∃ limit offset s', m s = (.aborted (.nestingLimit limit offset), s')

variable {program : Program} {host : Host σ α ε} {text c : Cursor} {env : Scope α} {h h' : σ}
  {v : Verdict α ε} {log : List (Event α)} {m : Matcher σ α ε}

/-- What passes on that the parse ends reaches the limit where it is reached inside. -/
theorem Exhausts.passed {m' : Matcher σ α ε} (hm : Exhausts program host text c env h m)
    (hp : ∀ (s s' : State σ α) (e : ParseError ε), m s = (.aborted e, s') →
      ∃ s'', m' s = (.aborted e, s'')) : Exhausts program host text c env h m' := by
  intro s hs
  obtain ⟨limit, offset, s', he⟩ := hm s hs
  exact ⟨limit, offset, hp s s' _ he⟩

namespace Matcher

theorem repeated_exhausts (hm : Exhausts program host text c env h m) (needsOne : Bool) :
    Exhausts program host text c env h (repeated needsOne m) := by
  refine hm.passed fun s s' e he => ?_
  have hr := repeated_aborted he
  cases needsOne with
  | false => exact ⟨_, hr⟩
  | true => exact ⟨_, repeated_true_eq hr⟩

theorem lookahead_exhausts (hm : Exhausts program host text c env h m) (negated : Bool) :
    Exhausts program host text c env h (lookahead negated m) := by
  intro s hs
  obtain ⟨limit, offset, s', he⟩ := hm _ (ready_muted hs)
  exact ⟨limit, offset, _, lookahead_eq negated he⟩

end Matcher

/-- No operator goes on behind the limit. -/
theorem Operator.run_exhausts (operator : Operator) (hm : Exhausts program host text c env h m) :
    Exhausts program host text c env h (operator.run host m) := by
  cases operator with
  | zeroOrMore => exact Matcher.repeated_exhausts hm false
  | oneOrMore => exact Matcher.repeated_exhausts hm true
  | followedBy => exact Matcher.lookahead_exhausts hm false
  | notFollowedBy => exact Matcher.lookahead_exhausts hm true
  | named expectation =>
    intro s hs
    obtain ⟨limit, offset, s', he⟩ := hm _ (Matcher.ready_muted hs)
    exact ⟨limit, offset, _, Matcher.named_eq expectation he⟩
  | labeled label => exact hm.passed fun s s' e he => ⟨_, Matcher.labeled_eq label he⟩
  | action code => exact hm.passed fun s s' e he => ⟨_, Matcher.action_eq host code he⟩
  | text =>
    exact hm.passed fun s s' e he => ⟨_, Matcher.mapValue_isolate_eq (fun text _ => .str text) he⟩
  | optional => exact hm.passed fun s s' e he => ⟨_, Matcher.optional_eq he⟩
  | group => exact hm.passed fun s s' e he => ⟨_, Matcher.isolate_eq he⟩

/-- Where no results are kept, a match leaves the state ready for what is behind it. -/
theorem Follows.ready (hu : program.cached = false)
    (hm : Follows program host Eq text c env h v log h' m) {s : State σ α}
    (hs : s.Ready program host Eq text [] c env h) (hv : v.GoesOn) :
    ∃ s', m s = (v.outcome, s') ∧
      s'.Ready program host Eq text [] (v.stopFrom c) (v.bound ++ env) h' := by
  obtain ⟨s', he, -, -, hon⟩ := hm [] s hs
  have hr := (hon hv).2
  rw [hu, Event.unrepeatedAll_false] at hr
  exact ⟨s', he, hr⟩

/-- The node has a derivation, or its run ends at the limit. -/
def Settles (program : Program) (host : Host σ α ε) (text : Cursor) (limit depth : Nat)
    (node : Node)
    (c : Cursor) (env : Scope α) (h : σ) : Prop :=
  (∃ v log h', Derives program.rules host depth node c env h v log h') ∨
    Exhausts program host text c env h (node.run host (program.invoke host limit depth))

variable {limit depth : Nat}

/-- What is derived without keeping results happens at the depth of its derivation. -/
theorem follows_uncached (text : Cursor) (limit : Nat) (hu : program.cached = false) {node : Node}
    (hd : Derives program.rules host depth node c env h v log h') :
    Follows program host Eq text c env h v log h'
      (node.run host (program.invoke host limit depth)) :=
  Program.follows_of_derives host.alike_eq (fun hc => absurd (hu.symm.trans hc) nofun) limit
    (Nat.le_refl depth) hd

namespace Node

theorem sequence_settles (hu : program.cached = false) (nodes : List Node)
    (hn : ∀ node ∈ nodes, ∀ c env h, Settles program host text limit depth node c env h) :
    Settles program host text limit depth (.sequence nodes) c env h := by
  induction nodes generalizing c env h with
  | nil => exact Or.inl ⟨_, _, _, .sequence_nil⟩
  | cons node nodes ih =>
    rcases hn node List.mem_cons_self c env h with ⟨v, log, h₁, hd⟩ | hx
    · cases v with
      | failed => exact Or.inl ⟨_, _, _, .sequence_failed hd⟩
      | aborted e => exact Or.inl ⟨_, _, _, .sequence_aborted hd⟩
      | matched value stop bound =>
        rcases @ih stop (bound ++ env) h₁ (fun n hm => hn n (List.mem_cons_of_mem _ hm)) with
          ⟨v, log', h₂, hd'⟩ | hx
        · exact Or.inl ⟨_, _, _, .sequence_cons hd hd'⟩
        · refine Or.inr fun s hs => ?_
          have hf := follows_uncached text limit hu hd
          obtain ⟨s', he, hs'⟩ := hf.ready hu hs trivial
          obtain ⟨n, offset, s'', he'⟩ := hx s' hs'
          have hi := run_sequence_cons host (program.invoke host limit depth) node nodes he
          dsimp only [Verdict.outcome] at hi
          rw [he'] at hi
          exact ⟨n, offset, s'', hi⟩
    · exact Or.inr (hx.passed fun s s' e he =>
        ⟨s', run_sequence_cons host (program.invoke host limit depth) node nodes he⟩)

theorem choice_settles (hu : program.cached = false) (nodes : List Node)
    (hn : ∀ node ∈ nodes, ∀ c env h, Settles program host text limit depth node c env h) :
    Settles program host text limit depth (.choice nodes) c env h := by
  induction nodes generalizing h with
  | nil => exact Or.inl ⟨_, _, _, .choice_nil⟩
  | cons node nodes ih =>
    rcases hn node List.mem_cons_self c env h with ⟨v, log, h₁, hd⟩ | hx
    · cases v with
      | matched value stop bound => exact Or.inl ⟨_, _, _, .choice_matched hd⟩
      | aborted e => exact Or.inl ⟨_, _, _, .choice_aborted hd⟩
      | failed =>
        rcases ih (fun n hm => hn n (List.mem_cons_of_mem _ hm)) (h := h₁) with
          ⟨v, log', h₂, hd'⟩ | hx
        · exact Or.inl ⟨_, _, _, .choice_cons hd hd'⟩
        · refine Or.inr fun s hs => ?_
          have hf := follows_uncached text limit hu hd
          obtain ⟨s', he, hs'⟩ := hf.ready hu hs trivial
          obtain ⟨n, offset, s'', he'⟩ := hx { s' with scope := s.scope }
            (hs'.rescope hs.scope s'.muted)
          have hi := run_choice_cons host (program.invoke host limit depth) node nodes he
          exact ⟨n, offset, s'', hi.trans he'⟩
    · exact Or.inr (hx.passed fun s s' e he =>
        ⟨_, run_choice_cons host (program.invoke host limit depth) node nodes he⟩)

/-- The rounds of a repetition come to an end, as each but the last leaves less of the text. -/
theorem zeroOrMore_settles (hu : program.cached = false) (body : Node)
    (hb : ∀ c env h, Settles program host text limit depth body c env h) :
    Settles program host text limit depth (.wrapped .zeroOrMore body) c env h := by
  induction hn : c.rest.length using Nat.strongRecOn generalizing c h with
  | _ n ih =>
    rcases hb c env h with ⟨v, log, h₁, hd⟩ | hx
    · cases v with
      | failed => exact Or.inl ⟨_, _, _, .zeroOrMore_done hd⟩
      | aborted e => exact Or.inl ⟨_, _, _, .zeroOrMore_aborted hd⟩
      | matched value stop bound =>
        by_cases hs : stop = c
        · cases hs
          exact Or.inl ⟨_, _, _, .zeroOrMore_empty hd⟩
        · have hreach : c.Reaches stop := hd.reaches
          have hlt := Cursor.rest_length_lt_of_reaches hreach
            fun ho => hs (Cursor.eq_of_reaches_of_offset hreach ho)
          rcases ih stop.rest.length (hn ▸ hlt) (c := stop) (h := h₁) rfl with
            ⟨v, log', h₂, hd'⟩ | hx
          · exact Or.inl ⟨_, _, _, .zeroOrMore_round hd hs hd'⟩
          · refine Or.inr fun s hr => ?_
            have hf := follows_uncached text limit hu hd
            obtain ⟨s', he, hs'⟩ := hf.ready hu hr trivial
            obtain ⟨n, offset, s'', he'⟩ := hx { s' with scope := s.scope }
              (hs'.rescope hr.scope s'.muted)
            have hne : s'.cursor ≠ s.cursor := by
              rw [hs'.cursor, hr.cursor]
              exact hs
            rw [Node.run] at he' ⊢
            exact ⟨n, offset, s'', Matcher.repeated_round (run_restores host
              (program.invoke_restores host limit depth) body) hr.lawful he hne he'⟩
    · refine Or.inr ?_
      rw [Node.run]
      exact Matcher.repeated_exhausts hx false

/-- What is derived for the body of an operator decides what is derived for the whole. -/
theorem wrapped_settles (hu : program.cached = false) (operator : Operator) (body : Node)
    (hb : ∀ c env h, Settles program host text limit depth body c env h) :
    Settles program host text limit depth (.wrapped operator body) c env h := by
  rcases hb c env h with ⟨v, log, h₁, hd⟩ | hx
  · cases operator with
    | labeled label => exact Or.inl ⟨_, _, _, .labeled hd⟩
    | text => exact Or.inl ⟨_, _, _, .text hd⟩
    | optional => exact Or.inl ⟨_, _, _, .optional hd⟩
    | group => exact Or.inl ⟨_, _, _, .group hd⟩
    | followedBy => exact Or.inl ⟨_, _, _, .followedBy hd⟩
    | notFollowedBy => exact Or.inl ⟨_, _, _, .notFollowedBy hd⟩
    | zeroOrMore => exact zeroOrMore_settles hu body hb
    | oneOrMore =>
      rcases zeroOrMore_settles hu body hb (c := c) (h := h) with ⟨v, log, h₁, hd⟩ | hx
      · exact Or.inl ⟨_, _, _, .oneOrMore hd⟩
      · rw [Node.run] at hx
        refine Or.inr ?_
        rw [Node.run]
        exact hx.passed fun s s' e he => ⟨s', Matcher.repeated_true_eq he⟩
    | named expectation =>
      cases v with
      | failed => exact Or.inl ⟨_, _, _, .named_failed hd⟩
      | matched value stop bound => exact Or.inl ⟨_, _, _, .named hd fun hv => by cases hv⟩
      | aborted e => exact Or.inl ⟨_, _, _, .named hd fun hv => by cases hv⟩
    | action code =>
      cases v with
      | failed => exact Or.inl ⟨_, _, _, .action_failed hd⟩
      | aborted e => exact Or.inl ⟨_, _, _, .action_aborted hd⟩
      | matched value stop bound =>
        rcases hc : host.action code ⟨c, stop, (bound ++ env).reverse, some value⟩ h₁ with
          ⟨answer, h₂⟩
        cases answer with
        | ok result => exact Or.inl ⟨_, _, _, .action hd hc⟩
        | error e => exact Or.inl ⟨_, _, _, .action_error hd hc⟩
  · refine Or.inr ?_
    rw [Node.run]
    exact operator.run_exhausts hx

theorem ruleRef_settles (hu : program.cached = false) {id : RuleId} {rule : CompiledRule}
    (hr : program.rules[id]? = some rule)
    (hb : ∀ depth' < depth, ∀ c env h, Settles program host text limit depth' rule.node c env h) :
    Settles program host text limit depth (.ruleRef id) c env h := by
  cases depth with
  | zero =>
    refine Or.inr fun s hs => ?_
    have hm : s.memoized? program id = none := by
      unfold State.memoized?
      rw [hu]
      rfl
    rw [Node.run]
    exact ⟨_, _, _, program.invoke_zero host limit hr hm⟩
  | succ depth =>
    rcases hb depth (Nat.lt_succ_self _) c [] h with ⟨v, log, h', hd⟩ | hx
    · exact Or.inl ⟨_, _, _, .ruleRef hr hd⟩
    · refine Or.inr fun s hs => ?_
      rw [Node.run]
      rcases he : program.invoke host limit (depth + 1) id s with ⟨o, s'⟩
      rcases Program.invoke_cases program host limit he with ⟨hn, -, -⟩ |
        ⟨found, result, events, -, hm, -, -⟩ | ⟨-, -, -, hz, -⟩ |
        ⟨found, depth', o', t, events, hf, -, hz, hrun, hend⟩
      · cases hr.symm.trans hn
      · cases hu.symm.trans (State.memoized?_eq_some.mp hm).1
      · cases hz
      · cases hr.symm.trans hf
        cases hz
        obtain ⟨n, offset, t', ht⟩ := hx { s with scope := [], events := events }
          ⟨⟨hs.sound.inText, hs.sound.kept⟩, hs.knows, hs.cursor, rfl, hs.like⟩
        cases hrun.symm.trans ht
        rcases hend with ⟨e, ho, rfl, -⟩ | ⟨result, events', ho, -, -⟩
        · cases ho
          exact ⟨n, offset, s', rfl⟩
        · cases result <;> cases ho

/-- In a closed program, every node has a derivation or reaches the limit. -/
theorem settles (hu : program.cached = false) (hclosed : program.Closed) (node : Node)
    (hn : ∀ ref ∈ node.refs, ∃ found, program.rules[ref]? = some found) (c : Cursor)
    (env : Scope α) (h : σ) : Settles program host text limit depth node c env h := by
  -- A rule has a body at a lower depth; all other nodes have smaller ones at the same depth.
  induction depth using Nat.strongRecOn generalizing node c env h with
  | _ depth ihd =>
    induction node using Node.induct generalizing c env h with
    | literal matcher expectation =>
      cases hm : matcher.matchAt c with
      | some stop => exact Or.inl ⟨_, _, _, .literal hm⟩
      | none => exact Or.inl ⟨_, _, _, .literal_missed hm⟩
    | charClass matcher expectation =>
      by_cases ha : ∃ a, c.peek = some a ∧ matcher.accepts a = true
      · obtain ⟨a, hp, ha⟩ := ha
        exact Or.inl ⟨_, _, _, .charClass hp ha⟩
      · exact Or.inl ⟨_, _, _, .charClass_missed fun a hp =>
          Bool.eq_false_iff.mpr fun hb => ha ⟨a, hp, hb⟩⟩
    | any expectation =>
      cases hp : c.peek with
      | some a => exact Or.inl ⟨_, _, _, .any hp⟩
      | none => exact Or.inl ⟨_, _, _, .any_missed hp⟩
    | ruleRef id =>
      obtain ⟨rule, hr⟩ := hn id List.mem_cons_self
      exact ruleRef_settles hu hr fun depth' hlt => ihd depth' hlt rule.node (hclosed id rule hr)
    | predicate negated code =>
      rcases hc : host.predicate code ⟨c, c, env.reverse, none⟩ h with ⟨answer, h'⟩
      cases answer with
      | ok answer => exact Or.inl ⟨_, _, _, .predicate hc⟩
      | error e => exact Or.inl ⟨_, _, _, .predicate_error hc⟩
    | sequence nodes ih =>
      exact sequence_settles hu nodes fun node hm => ih node hm fun ref hr =>
        hn ref (mem_refsOfAll.mpr ⟨node, hm, hr⟩)
    | choice nodes ih =>
      exact choice_settles hu nodes fun node hm => ih node hm fun ref hr =>
        hn ref (mem_refsOfAll.mpr ⟨node, hm, hr⟩)
    | wrapped operator body ih => exact wrapped_settles hu operator body (ih hn)

end Node
end Peg
