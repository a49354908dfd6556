import Peg.Proofs.Restoration

/-! Nodes that always consume input when they match, as far as their parts tell, do so in every run;
and with them the rules whose nodes are of this kind. What the memo gives instead of a run obeys the
same laws, since nothing else is ever kept. -/
namespace Peg

variable {σ α ε : Type} {text : Cursor}

namespace Node

mutual

def consumes (rule : RuleId → Bool) : Node → Bool
  | literal matcher _ => matcher.length == matcher.chars.length && !matcher.chars.isEmpty
  | charClass .. | any _ => true
  | ruleRef id => rule id
  | predicate .. => false
  | sequence elements => anyConsumes rule elements
  | choice alternatives => allConsume rule alternatives
  | wrapped operator body =>
    match operator with
    | .labeled _ | .named _ | .action _ | .text | .oneOrMore | .group => body.consumes rule
    | .optional | .zeroOrMore | .followedBy | .notFollowedBy => false

def anyConsumes (rule : RuleId → Bool) : List Node → Bool
  | [] => false
  | node :: nodes => node.consumes rule || anyConsumes rule nodes

def allConsume (rule : RuleId → Bool) : List Node → Bool
  | [] => true
  | node :: nodes => node.consumes rule && allConsume rule nodes

end

end Node

/-- Every match of the matcher ends further on than it began. -/
def Consumes (text : Cursor) (Kept : RuleId → Cursor → RuleResult α → Prop) (m : Matcher σ α ε) :
    Prop :=
  ∀ (s s' : State σ α) (value : Value α), s.Sound text Kept → m s = (.matched value, s') →
    s.cursor.offset < s'.cursor.offset

variable {Kept : RuleId → Cursor → RuleResult α → Prop} {rule : RuleId → Bool}

namespace Matcher

theorem literal_consumes {matcher : LiteralMatcher} (expectation : ExpectationId)
    (hl : matcher.length = matcher.chars.length) (hn : matcher.chars ≠ []) :
    Consumes text Kept (literal matcher expectation : Matcher σ α ε) := by
  intro s s' value hs h
  unfold literal at h
  split at h
  · rename_i stop hm
    cases h
    obtain ⟨rfl, hle⟩ := LiteralMatcher.matchAt_eq_some hl hm
    exact Cursor.lt_offset_skip (hl ▸ List.length_pos_iff.mpr hn) hle
  · cases h

theorem char_consumes (accepts : Char → Bool) (expectation : ExpectationId) :
    Consumes text Kept (char accepts expectation : Matcher σ α ε) := by
  intro s s' value hs h
  unfold char at h
  split at h
  · rename_i a hp
    split at h
    · cases h
      obtain ⟨rest, hr⟩ := Cursor.peek_eq_some hp
      have hpos := Char.utf8Size_pos a
      have ho := Cursor.next_offset hr
      dsimp only
      omega
    · cases h
  · cases h

theorem isolate_consumes {m : Matcher σ α ε} (hm : Consumes text Kept m) :
    Consumes text Kept (isolate m) := by
  intro s s' value hs h
  rcases he : m s with ⟨o, t⟩
  rw [isolate_eq he] at h
  cases h
  exact hm s t value hs he

theorem mapValue_consumes (f : String → Value α → Value α) {m : Matcher σ α ε}
    (hm : Consumes text Kept m) : Consumes text Kept (mapValue f m) := by
  intro s s' value hs h
  rcases he : m s with ⟨o, t⟩
  unfold mapValue at h
  rw [he] at h
  cases o with
  | matched inner => cases h; exact hm s s' inner hs he
  | failed => cases h
  | aborted e => cases h

theorem labeled_consumes (label : String) {m : Matcher σ α ε} (hm : Consumes text Kept m) :
    Consumes text Kept (labeled label m) := by
  intro s s' value hs h
  rcases he : m s with ⟨o, t⟩
  rw [labeled_eq label he] at h
  cases h
  exact hm s t value hs he

theorem named_consumes (expectation : ExpectationId) {m : Matcher σ α ε}
    (hm : Consumes text Kept m) : Consumes text Kept (named expectation m) := by
  intro s s' value hs h
  rcases he : m { s with muted := true } with ⟨o, t⟩
  rw [named_eq expectation he] at h
  cases o with
  | matched inner =>
    cases h
    exact hm { s with muted := true } t value ⟨hs.inText, hs.kept⟩ he
  | failed => cases h
  | aborted e => cases h

theorem action_consumes (host : Host σ α ε) (code : String) {m : Matcher σ α ε}
    (hm : Consumes text Kept m) : Consumes text Kept (action host code m) := by
  intro s s' value hs h
  rcases he : m s with ⟨o, t⟩
  rw [action_eq host code he] at h
  cases o with
  | matched inner =>
    obtain ⟨-, rfl⟩ := Prod.mk.inj h
    exact hm s t inner hs he
  | failed => cases h
  | aborted e => cases h

theorem repeated_consumes {m : Matcher σ α ε} (hr : Restores text Kept m)
    (hm : Consumes text Kept m) : Consumes text Kept (repeated true m) := by
  intro s s' value hs h
  obtain ⟨o, t, hrounds⟩ := exists_rounds m s.cursor.rest s
  rw [repeated_eq true hrounds] at h
  generalize s.cursor.rest = bound at hrounds
  cases hrounds with
  | failed he => cases h
  | aborted he => cases h
  | last he hend =>
    have hlt := hm s _ _ hs he
    cases h
    exact hlt
  | @again _ _ _ u _ inner o he hmoved hrest =>
    have hlt := hm s u inner hs he
    have hp := he ▸ hr s hs
    cases o with
    | matched others =>
      obtain ⟨-, -, hreach, -⟩ :=
        hrest.restores hr (s := { u with scope := s.scope }) ⟨hp.1.inText, hp.1.kept⟩
      cases h
      exact Nat.lt_of_lt_of_le hlt (Cursor.offset_le_of_reaches hreach)
    | failed => exact absurd rfl hrest.ne_failed
    | aborted e => cases h

end Matcher

namespace Node

variable (host : Host σ α ε) {call : RuleId → Matcher σ α ε}

theorem sequence_consumes (hc : ∀ id, Restores text Kept (call id)) (nodes : List Node)
    (hn : ∀ node ∈ nodes, node.consumes rule = true → Consumes text Kept (node.run host call))
    (ha : anyConsumes rule nodes = true) :
    Consumes text Kept ((Node.sequence nodes).run host call) := by
  induction nodes with
  | nil => cases ha
  | cons node nodes ih =>
    intro s s' value hs h
    have hp := run_restores host hc node s hs
    rcases he : node.run host call s with ⟨o, s₁⟩
    rw [he] at hp
    rw [run_sequence_cons host call node nodes he] at h
    cases o with
    | failed => cases h
    | aborted e => cases h
    | matched inner =>
      dsimp only at h
      have hle := Cursor.offset_le_of_reaches hp.2.2.1
      have hq := run_restores host hc (Node.sequence nodes) s₁ hp.1
      rcases hr : (Node.sequence nodes).run host call s₁ with ⟨o', s₂⟩
      rw [hr] at h hq
      cases o' with
      | failed => cases h
      | aborted e => cases h
      | matched values =>
        have hle' := Cursor.offset_le_of_reaches hq.2.2.1
        cases h
        rcases (Bool.or_eq_true _ _).mp ha with hf | hf
        · have hlt := hn node List.mem_cons_self hf s s₁ inner hs he
          omega
        · have hlt := ih (fun n hm => hn n (List.mem_cons_of_mem _ hm)) hf s₁ s' values hp.1 hr
          omega

theorem choice_consumes (hc : ∀ id, Restores text Kept (call id)) (nodes : List Node)
    (hn : ∀ node ∈ nodes, node.consumes rule = true → Consumes text Kept (node.run host call))
    (ha : allConsume rule nodes = true) :
    Consumes text Kept ((Node.choice nodes).run host call) := by
  induction nodes with
  | nil =>
    intro s s' value hs h
    rw [run_choice_nil] at h
    cases h
  | cons node nodes ih =>
    intro s s' value hs h
    obtain ⟨hf, ht⟩ := (Bool.and_eq_true _ _).mp ha
    have hp := run_restores host hc node s hs
    rcases he : node.run host call s with ⟨o, s₁⟩
    rw [he] at hp
    rw [run_choice_cons host call node nodes he] at h
    cases o with
    | matched inner =>
      cases h
      exact hn node List.mem_cons_self hf s s₁ value hs he
    | aborted e => cases h
    | failed =>
      obtain ⟨hs₁, -, hcursor, -⟩ := hp
      have hlt := ih (fun n hm => hn n (List.mem_cons_of_mem _ hm)) ht { s₁ with scope := s.scope }
        s' value ⟨hs₁.inText, hs₁.kept⟩ h
      dsimp only at hlt
      rw [hcursor] at hlt
      exact hlt

/-- Nodes consume what their parts promise, if the rules do. -/
theorem run_consumes (hc : ∀ id, Restores text Kept (call id))
    (hk : ∀ id, rule id = true → Consumes text Kept (call id)) (node : Node)
    (h : node.consumes rule = true) : Consumes text Kept (node.run host call) := by
  induction node using Node.induct with
  | literal matcher expectation =>
    obtain ⟨hl, hn⟩ := (Bool.and_eq_true _ _).mp h
    rw [run]
    refine Matcher.literal_consumes expectation (beq_iff_eq.mp hl) fun he => ?_
    rw [he] at hn
    cases hn
  | charClass matcher expectation => rw [run]; exact Matcher.char_consumes _ expectation
  | any expectation => rw [run]; exact Matcher.char_consumes _ expectation
  | ruleRef id => rw [run]; exact hk id h
  | predicate negated code => cases h
  | sequence nodes ih => exact sequence_consumes host hc nodes ih h
  | choice nodes ih => exact choice_consumes host hc nodes ih h
  | wrapped operator body ih =>
    have hr := run_restores host hc body
    rw [run]
    cases operator with
    | labeled label => exact Matcher.labeled_consumes label (ih h)
    | named expectation => exact Matcher.named_consumes expectation (ih h)
    | action code => exact Matcher.action_consumes host code (ih h)
    | text =>
      exact Matcher.mapValue_consumes (fun text _ => .str text) (Matcher.isolate_consumes (ih h))
    | oneOrMore => exact Matcher.repeated_consumes hr (ih h)
    | group => exact Matcher.isolate_consumes (ih h)
    | optional => cases h
    | zeroOrMore => cases h
    | followedBy => cases h
    | notFollowedBy => cases h

end Node

/-- What a rule may come to at `c`: a match does not end before, nor, if the rule always consumes
input, at `c`; a failure stays at `c`. -/
structure RuleResult.Lawful (rule : RuleId → Bool) (id : RuleId) (c : Cursor)
    (result : RuleResult α) : Prop where
  reaches : c.Reaches result.stop
  stays : result.value = none → result.stop = c
  consumes : rule id = true → result.value ≠ none → c.offset < result.stop.offset

/-- The matcher comes to a result that may be kept for the rule, unless the parse ends in it. -/
def Gives (text : Cursor) (Kept : RuleId → Cursor → RuleResult α → Prop) (id : RuleId)
    (m : Matcher σ α ε) : Prop :=
  ∀ (s s' : State σ α) (o : Outcome ε (Value α)), s.Sound text Kept → m s = (o, s') →
    (∃ e, o = .aborted e) ∨
    ∃ result, o = Outcome.ofOption result.value ∧ Kept id s.cursor result ∧ s'.Sound text Kept ∧
      s'.cursor = result.stop ∧ s'.scope = s.scope ∧ s'.muted = s.muted

/-- What is kept must be of the kind that matchers may come to. -/
theorem Gives.restores {id : RuleId} {m : Matcher σ α ε} (hm : Gives text Kept id m)
    (hk : ∀ c result, Kept id c result → RuleResult.Lawful rule id c result) :
    Restores text Kept m := by
  intro s hs
  rcases he : m s with ⟨o, s'⟩
  rcases hm s s' o hs he with ⟨e, rfl⟩ | ⟨result, rfl, hr, hs', hcursor, hscope, hmuted⟩
  · trivial
  · have hl := hk s.cursor result hr
    cases hv : result.value with
    | some value => exact ⟨hs', hmuted, hcursor ▸ hl.reaches, [], hscope⟩
    | none => exact ⟨hs', hmuted, hcursor.trans (hl.stays hv), hscope⟩

theorem restores_of_gives {id : RuleId} {m : Matcher σ α ε}
    (hm : Gives text (RuleResult.Lawful rule) id m) :
    Restores text (RuleResult.Lawful rule) m :=
  hm.restores fun _ _ hr => hr

theorem consumes_of_gives {id : RuleId} {m : Matcher σ α ε}
    (hm : Gives text (RuleResult.Lawful rule) id m) (hi : rule id = true) :
    Consumes text (RuleResult.Lawful rule) m := by
  intro s s' value hs he
  rcases hm s s' _ hs he with ⟨e, ho⟩ | ⟨result, ho, hk, -, hcursor, -⟩
  · cases ho
  · rw [hcursor]
    refine hk.consumes hi fun hv => ?_
    rw [hv] at ho
    cases ho

namespace Program

variable (program : Program) (host : Host σ α ε) (limit : Nat)

/-- What the body of a rule comes to is of the kind that may be kept for the rule. -/
theorem body_gives {call : RuleId → Matcher σ α ε}
    (hc : ∀ id, Gives text (RuleResult.Lawful rule) id (call id)) {id : RuleId} {node : Node}
    (hk : rule id = true → node.consumes rule = true) {s t : State σ α}
    (hs : s.Sound text (RuleResult.Lawful rule)) {result : Option (Value α)}
    (hb : node.run host call s = (Outcome.ofOption result, t)) :
    RuleResult.Lawful rule id s.cursor ⟨result, t.cursor⟩ ∧
      t.Sound text (RuleResult.Lawful rule) ∧ t.muted = s.muted := by
  have hp := Node.run_restores host (fun id => restores_of_gives (hc id)) node s hs
  have hq := Node.run_consumes host (fun id => restores_of_gives (hc id))
    (fun id hi => consumes_of_gives (hc id) hi) node
  rw [hb] at hp
  cases result with
  | some value =>
    exact ⟨⟨hp.2.2.1, nofun, fun hi _ => hq (hk hi) s t value hs hb⟩, hp.1, hp.2.1⟩
  | none =>
    have hcursor : t.cursor = s.cursor := hp.2.2.1
    exact ⟨⟨⟨0, hcursor⟩, fun _ => hcursor, fun _ hv => absurd rfl hv⟩, hp.1, hp.2.1⟩

/-- A rule comes to what its body comes to, or to what is kept, if what bodies come to may be kept
as soon as that holds of the rules called. -/
theorem invoke_gives_of_body (hk : ∀ id c result, Kept id c result → c.Reaches result.stop)
    (hunknown : ∀ id c, program.rules[id]? = none → Kept id c ⟨none, c⟩)
    (hbody : ∀ call : RuleId → Matcher σ α ε, (∀ id, Gives text Kept id (call id)) →
      ∀ id found, program.rules[id]? = some found → ∀ (s t : State σ α) result,
      s.Sound text Kept → found.node.run host call s = (Outcome.ofOption result, t) →
      Kept id s.cursor ⟨result, t.cursor⟩ ∧ t.Sound text Kept ∧ t.muted = s.muted)
    (depth : Nat) (id : RuleId) : Gives text Kept id (program.invoke host limit depth id) := by
  induction depth using Nat.strongRecOn generalizing id with
  | _ depth ih =>
    intro s s' o hs h
    rcases invoke_cases program host limit h with ⟨hr, rfl, rfl⟩ |
      ⟨found, result, events, -, hm, rfl, rfl⟩ | ⟨found, -, -, -, rfl, -⟩ |
      ⟨found, depth', o', t, events, hr, -, rfl, hb, hend⟩
    · exact Or.inr ⟨⟨none, s'.cursor⟩, rfl, hunknown id s'.cursor hr, hs, rfl, rfl, rfl⟩
    · have hl := hs.kept id s.cursor result hs.inText (State.memoized?_eq_some.mp hm).2
      exact Or.inr ⟨result, rfl, hl,
        ⟨Cursor.reaches_trans hs.inText (hk id s.cursor result hl), hs.kept⟩, rfl, rfl, rfl⟩
    · exact Or.inl ⟨_, rfl⟩
    · rcases hend with ⟨e, -, rfl, -⟩ | ⟨result, events', rfl, rfl, rfl⟩
      · exact Or.inl ⟨e, rfl⟩
      · obtain ⟨hl, ht, hmuted⟩ := hbody _ (fun id => ih depth' (Nat.lt_succ_self _) id) id found hr
          { s with scope := [], events := events } t result ⟨hs.inText, hs.kept⟩ hb
        have hs' := State.sound_remember program (s := { t with scope := s.scope })
          ⟨ht.inText, ht.kept⟩ hs.inText hl
        rw [State.remember_eq] at hs' ⊢
        exact Or.inr ⟨⟨result, t.cursor⟩, rfl, hl, ⟨hs'.inText, hs'.kept⟩, rfl, rfl, hmuted⟩

/-- What rules come to is lawful. -/
theorem invoke_gives
    (hk : ∀ id found, program.rules[id]? = some found → rule id = true →
      found.node.consumes rule = true) (depth : Nat) (id : RuleId) :
    Gives text (RuleResult.Lawful rule) id (program.invoke host limit depth id) :=
  invoke_gives_of_body program host limit (fun _ _ _ hl => hl.reaches)
    (fun _ c _ => ⟨c.reaches_refl, fun _ => rfl, fun _ hv => absurd rfl hv⟩)
    (fun _ hc id found hr _ _ _ hs hb => body_gives host hc (hk id found hr) hs hb) depth id

/-- Rules keep the contract of matchers. -/
theorem invoke_restores (depth : Nat) (id : RuleId) :
    Restores text (RuleResult.Lawful fun _ => false) (program.invoke host limit depth id) :=
  restores_of_gives (invoke_gives program host limit
    (fun _ _ _ h => absurd h Bool.false_ne_true) depth id)

end Program
end Peg
