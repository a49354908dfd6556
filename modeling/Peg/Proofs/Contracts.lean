import Peg.Proofs.Consumption

/-! Contracts about what steps leave behind: results of rules and events. Only rules leave any; so
a node keeps such a contract if the rules do that it may enter at its own offset, and those that
are entered further on; for what stands behind an element that consumes input is only run further
on. -/
namespace Peg

variable {σ α ε β γ : Type}

/-- The results that are kept and the events that are noted. -/
def State.trail (s : State σ α) : Memo α × List TraceEvent := (s.memo, s.events)

structure Contract (σ α ε : Type) where
  Allows : {β : Type} → State σ α → Outcome ε β × State σ α → Prop
  /-- A step may leave nothing behind. -/
  still : ∀ {β : Type} {s t : State σ α} {o : Outcome ε β}, t.trail = s.trail →
    (∀ limit offset, o ≠ .aborted (.nestingLimit limit offset)) → Allows s (o, t)
  /-- A step may do what another one does, and end in another way, the end of the parse apart. -/
  around : ∀ {β γ : Type} {s t s' t' : State σ α} {o : Outcome ε β} {o' : Outcome ε γ},
    Allows s (o, t) → s'.trail = s.trail → t'.trail = t.trail →
    (∀ e, o = .aborted e → o' = .aborted e) →
    (∀ limit offset, o' = .aborted (.nestingLimit limit offset) →
      o = .aborted (.nestingLimit limit offset)) → Allows s' (o', t')
  /-- Steps may follow each other. -/
  trans : ∀ {β γ : Type} {s t t' u : State σ α} {o : Outcome ε β} {o' : Outcome ε γ},
    Allows s (o, t) → (∀ e, o ≠ .aborted e) → Allows t' (o', u) → t'.trail = t.trail →
    Allows s (o', u)

variable {text : Cursor} {Kept : RuleId → Cursor → RuleResult α → Prop} {k : Contract σ α ε}
  {p : Nat}

/-- The step keeps the contract wherever it starts from the offset `p` on. -/
def Keeps (text : Cursor) (Kept : RuleId → Cursor → RuleResult α → Prop) (k : Contract σ α ε)
    (p : Nat) (m : Step σ α ε β) : Prop :=
  ∀ s : State σ α, s.Sound text Kept → p ≤ s.cursor.offset → k.Allows s (m s)

theorem Keeps.mono {m : Step σ α ε β} (h : Keeps text Kept k p m) {q : Nat} (hq : p ≤ q) :
    Keeps text Kept k q m :=
  fun s hs hp => h s hs (Nat.le_trans hq hp)

namespace Matcher

variable {m : Matcher σ α ε}

theorem fail_keeps (expectation : ExpectationId) (s : State σ α) :
    k.Allows s (fail expectation s : Outcome ε (Value α) × State σ α) := by
  obtain ⟨furthest, expected, he⟩ := State.recordFailure_eq expectation s
  rw [fail, he]
  refine k.still rfl fun limit offset hv => ?_
  cases hv

theorem literal_keeps (matcher : LiteralMatcher) (expectation : ExpectationId) :
    Keeps text Kept k p (literal matcher expectation : Matcher σ α ε) := by
  intro s hs hp
  unfold literal
  split
  · exact k.still rfl nofun
  · exact fail_keeps expectation s

theorem char_keeps (accepts : Char → Bool) (expectation : ExpectationId) :
    Keeps text Kept k p (char accepts expectation : Matcher σ α ε) := by
  intro s hs hp
  unfold char
  split
  · split
    · exact k.still rfl nofun
    · exact fail_keeps expectation s
  · exact fail_keeps expectation s

theorem isolate_keeps (hm : Keeps text Kept k p m) : Keeps text Kept k p (isolate m) := by
  intro s hs hp
  have h := hm s hs hp
  rcases he : m s with ⟨o, t⟩
  rw [he] at h
  rw [isolate_eq he]
  exact k.around h rfl rfl (fun _ hv => hv) fun _ _ hv => hv

theorem text_keeps (f : String → Value α → Value α) (hm : Keeps text Kept k p m) :
    Keeps text Kept k p (mapValue f (isolate m)) := by
  intro s hs hp
  have h := hm s hs hp
  rcases he : m s with ⟨o, t⟩
  rw [he] at h
  rw [mapValue_isolate_eq f he]
  refine k.around h rfl rfl (fun e hv => by subst hv; rfl) fun limit offset hv => ?_
  cases o with
  | aborted e => exact hv
  | matched value => cases hv
  | failed => cases hv

theorem labeled_keeps (label : String) (hm : Keeps text Kept k p m) :
    Keeps text Kept k p (labeled label m) := by
  intro s hs hp
  have h := hm s hs hp
  rcases he : m s with ⟨o, t⟩
  rw [he] at h
  rw [labeled_eq label he]
  exact k.around h rfl rfl (fun _ hv => hv) fun _ _ hv => hv

theorem named_keeps (expectation : ExpectationId) (hm : Keeps text Kept k p m) :
    Keeps text Kept k p (named expectation m) := by
  intro s hs hp
  have h := hm { s with muted := true } ⟨hs.inText, hs.kept⟩ hp
  rcases he : m { s with muted := true } with ⟨o, t⟩
  rw [he] at h
  rw [named_eq expectation he]
  cases o with
  | matched value => exact k.around h rfl rfl (fun _ hv => hv) fun _ _ hv => hv
  | failed =>
    obtain ⟨furthest, expected, hr⟩ := State.recordFailure_eq expectation
      { t with scope := s.scope, muted := s.muted }
    simp only [fail, hr]
    exact k.around h rfl rfl (fun _ hv => hv) fun _ _ hv => hv
  | aborted e => exact k.around h rfl rfl (fun _ hv => hv) fun _ _ hv => hv

theorem optional_keeps (hm : Keeps text Kept k p m) : Keeps text Kept k p (optional m) := by
  intro s hs hp
  have h := hm s hs hp
  rcases he : m s with ⟨o, t⟩
  rw [he] at h
  rw [optional_eq he]
  refine k.around h rfl rfl (fun e hv => by subst hv; rfl) fun limit offset hv => ?_
  cases o with
  | aborted e => exact hv
  | matched value => cases hv
  | failed => cases hv

theorem lookahead_keeps (negated : Bool) (hm : Keeps text Kept k p m) :
    Keeps text Kept k p (lookahead negated m) := by
  intro s hs hp
  have h := hm { s with muted := true } ⟨hs.inText, hs.kept⟩ hp
  rcases he : m { s with muted := true } with ⟨o, t⟩
  rw [he] at h
  rw [lookahead_eq negated he]
  refine k.around h rfl rfl (fun e hv => by subst hv; rfl) fun limit offset hv => ?_
  cases o with
  | aborted e => exact hv
  | matched value => cases negated <;> cases hv
  | failed => cases negated <;> cases hv

theorem Rounds.keeps (hr : Restores text Kept m) (hm : Keeps text Kept k p m) {bound : List Char}
    {s s' : State σ α} {o : Outcome ε (List (Value α))} (h : Rounds m bound s o s')
    (hs : s.Sound text Kept) (hp : p ≤ s.cursor.offset) : k.Allows s (o, s') := by
  induction h with
  | @failed bound s t h =>
    have hround : k.Allows s (.failed, t) := h ▸ hm s hs hp
    exact k.around hround rfl rfl nofun nofun
  | @aborted bound s t e h =>
    have hround : k.Allows s (.aborted e, t) := h ▸ hm s hs hp
    exact k.around hround rfl rfl (fun _ hv => by cases hv; rfl) fun _ _ hv => by cases hv; rfl
  | @last bound s t value h hend =>
    have hround : k.Allows s (.matched value, t) := h ▸ hm s hs hp
    exact k.around hround rfl rfl nofun nofun
  | @again c bound s t s' value o h hmoved hrest ih =>
    have hround : k.Allows s (.matched value, t) := h ▸ hm s hs hp
    have hpermits := h ▸ hr s hs
    have hrounds := ih ⟨hpermits.1.inText, hpermits.1.kept⟩
      (Nat.le_trans hp (Cursor.offset_le_of_reaches hpermits.2.2.1))
    exact k.around (k.trans hround nofun hrounds rfl) rfl rfl
      (fun e hv => Outcome.map_eq_aborted.mpr hv)
      fun limit offset hv => Outcome.map_eq_aborted.mp hv

theorem repeated_keeps (needsOne : Bool) (hr : Restores text Kept m)
    (hm : Keeps text Kept k p m) : Keeps text Kept k p (repeated needsOne m) := by
  intro s hs hp
  obtain ⟨o, t, h⟩ := exists_rounds m s.cursor.rest s
  have hrounds := h.keeps hr hm hs hp
  rw [repeated_eq needsOne h]
  cases o with
  | matched values =>
    dsimp only
    split
    · exact k.around hrounds rfl rfl nofun nofun
    · exact k.around hrounds rfl rfl nofun nofun
  | failed => exact k.around hrounds rfl rfl nofun nofun
  | aborted e =>
    exact k.around hrounds rfl rfl (fun _ hv => by cases hv; rfl) fun _ _ hv => by cases hv; rfl

theorem toParseError_ne_nestingLimit (context : CodeContext α) (e : CodeError ε)
    (limit offset : Nat) : e.toParseError context ≠ .nestingLimit limit offset := by
  cases e <;> nofun

theorem action_keeps (host : Host σ α ε) (code : String) (hm : Keeps text Kept k p m) :
    Keeps text Kept k p (action host code m) := by
  intro s hs hp
  have h := hm s hs hp
  rcases he : m s with ⟨o, t⟩
  rw [he] at h
  rw [action_eq host code he]
  cases o with
  | matched value =>
    refine k.around h rfl rfl nofun fun limit offset hv => ?_
    split at hv
    · cases hv
    · exact absurd (Outcome.aborted.inj hv) (toParseError_ne_nestingLimit _ _ limit offset)
  | failed => exact k.around h rfl rfl nofun nofun
  | aborted e => exact k.around h rfl rfl (fun _ hv => hv) fun _ _ hv => hv

theorem predicate_keeps (host : Host σ α ε) (negated : Bool) (code : String) :
    Keeps text Kept k p (predicate host negated code : Matcher σ α ε) := by
  intro s hs hp
  rw [predicate_eq]
  refine k.still rfl fun limit offset hv => ?_
  split at hv
  · split at hv <;> cases hv
  · exact absurd (Outcome.aborted.inj hv) (toParseError_ne_nestingLimit _ _ limit offset)

end Matcher

namespace Node

mutual

/-- The rules that the node may enter before it consumes input. -/
def leftCalls (rule : RuleId → Bool) : Node → List RuleId
  | ruleRef id => [id]
  | sequence elements => leftCallsOfElements rule elements
  | choice alternatives => leftCallsOfAlternatives rule alternatives
  | wrapped _ body => body.leftCalls rule
  | _ => []

def leftCallsOfElements (rule : RuleId → Bool) : List Node → List RuleId
  | [] => []
  | node :: nodes =>
    node.leftCalls rule ++ if node.consumes rule then [] else leftCallsOfElements rule nodes

def leftCallsOfAlternatives (rule : RuleId → Bool) : List Node → List RuleId
  | [] => []
  | node :: nodes => node.leftCalls rule ++ leftCallsOfAlternatives rule nodes

end

variable {rule : RuleId → Bool} (host : Host σ α ε) {call : RuleId → Matcher σ α ε}

theorem sequence_keeps (hc : ∀ id, Restores text Kept (call id))
    (hk : ∀ id, rule id = true → Consumes text Kept (call id)) (nodes : List Node)
    (ih : ∀ node ∈ nodes, ∀ p, (∀ id ∈ node.leftCalls rule, Keeps text Kept k p (call id)) →
      (∀ id, Keeps text Kept k (p + 1) (call id)) → Keeps text Kept k p (node.run host call))
    (hleft : ∀ id ∈ leftCallsOfElements rule nodes, Keeps text Kept k p (call id))
    (hright : ∀ id, Keeps text Kept k (p + 1) (call id)) :
    Keeps text Kept k p ((Node.sequence nodes).run host call) := by
  induction nodes generalizing p with
  | nil =>
    intro s hs hp
    rw [run_sequence_nil]
    exact k.still rfl nofun
  | cons node nodes ih' =>
    intro s hs hp
    have h := ih node List.mem_cons_self p
      (fun id hm => hleft id (List.mem_append_left _ hm)) hright s hs hp
    have hpermits := run_restores host hc node s hs
    rcases he : node.run host call s with ⟨o, t⟩
    rw [he] at h hpermits
    rw [run_sequence_cons host call node nodes he]
    cases o with
    | matched value =>
      obtain ⟨hs', -, hreach, -⟩ := hpermits
      have hle := Cursor.offset_le_of_reaches hreach
      have ih' := fun {p} => ih' (p := p) fun n hm => ih n (List.mem_cons_of_mem _ hm)
      -- Behind an element that consumes input, every rule may be entered; behind another one, only
      -- those of the list.
      have hrest : k.Allows t ((Node.sequence nodes).run host call t) := by
        cases hcons : node.consumes rule with
        | true =>
          have hlt := run_consumes host hc hk node hcons s t value hs he
          exact ih' (p := p + 1) (fun id _ => hright id)
            (fun id => (hright id).mono (Nat.le_succ _)) t hs' (by omega)
        | false =>
          refine ih' (p := p) (fun id hm => hleft id ?_) hright t hs' (by omega)
          rw [leftCallsOfElements, hcons]
          exact List.mem_append_right _ hm
      dsimp only
      rcases hr : (Node.sequence nodes).run host call t with ⟨o', u⟩
      rw [hr] at hrest
      have hall := k.trans h nofun hrest rfl
      cases o' with
      | matched values => exact k.around hall rfl rfl nofun nofun
      | failed => exact k.around hall rfl rfl nofun nofun
      | aborted e => exact k.around hall rfl rfl (fun _ hv => hv) fun _ _ hv => hv
    | failed => exact k.around h rfl rfl nofun nofun
    | aborted e => exact h

theorem choice_keeps (hc : ∀ id, Restores text Kept (call id)) (nodes : List Node)
    (ih : ∀ node ∈ nodes, (∀ id ∈ node.leftCalls rule, Keeps text Kept k p (call id)) →
      Keeps text Kept k p (node.run host call))
    (hleft : ∀ id ∈ leftCallsOfAlternatives rule nodes, Keeps text Kept k p (call id)) :
    Keeps text Kept k p ((Node.choice nodes).run host call) := by
  induction nodes with
  | nil =>
    intro s hs hp
    rw [run_choice_nil]
    exact k.still rfl nofun
  | cons node nodes ih' =>
    intro s hs hp
    have h := ih node List.mem_cons_self (fun id hm => hleft id (List.mem_append_left _ hm)) s hs hp
    have hpermits := run_restores host hc node s hs
    rcases he : node.run host call s with ⟨o, t⟩
    rw [he] at h hpermits
    rw [run_choice_cons host call node nodes he]
    cases o with
    | matched value => exact k.around h rfl rfl nofun nofun
    | failed =>
      obtain ⟨hs', -, hcursor, -⟩ := hpermits
      have hrest := ih' (fun n hm => ih n (List.mem_cons_of_mem _ hm))
        (fun id hm => hleft id (List.mem_append_right _ hm)) { t with scope := s.scope }
        ⟨hs'.inText, hs'.kept⟩ (hcursor ▸ hp)
      exact k.trans h nofun hrest rfl
    | aborted e => exact k.around h rfl rfl (fun _ hv => hv) fun _ _ hv => hv

/-- A node keeps a contract from an offset on if the rules do that it may enter there, and all rules
further on. -/
theorem run_keeps (hc : ∀ id, Restores text Kept (call id))
    (hk : ∀ id, rule id = true → Consumes text Kept (call id)) (node : Node)
    (hleft : ∀ id ∈ node.leftCalls rule, Keeps text Kept k p (call id))
    (hright : ∀ id, Keeps text Kept k (p + 1) (call id)) :
    Keeps text Kept k p (node.run host call) := by
  induction node using Node.induct generalizing p with
  | literal matcher expectation => rw [run]; exact Matcher.literal_keeps matcher expectation
  | charClass matcher expectation => rw [run]; exact Matcher.char_keeps _ expectation
  | any expectation => rw [run]; exact Matcher.char_keeps _ expectation
  | ruleRef id => rw [run]; exact hleft id (List.mem_singleton_self id)
  | predicate negated code => rw [run]; exact Matcher.predicate_keeps host negated code
  | sequence nodes ih =>
    exact sequence_keeps host hc hk nodes (fun node hm p => ih node hm) hleft hright
  | choice nodes ih =>
    exact choice_keeps host hc nodes (fun node hm hl => ih node hm hl hright) hleft
  | wrapped operator body ih =>
    have hr := run_restores host hc body
    have ih := ih hleft hright
    rw [run]
    cases operator with
    | labeled label => exact Matcher.labeled_keeps label ih
    | named expectation => exact Matcher.named_keeps expectation ih
    | action code => exact Matcher.action_keeps host code ih
    | text => exact Matcher.text_keeps (fun text _ => .str text) ih
    | optional => exact Matcher.optional_keeps ih
    | zeroOrMore => exact Matcher.repeated_keeps false hr ih
    | oneOrMore => exact Matcher.repeated_keeps true hr ih
    | group => exact Matcher.isolate_keeps ih
    | followedBy => exact Matcher.lookahead_keeps false ih
    | notFollowedBy => exact Matcher.lookahead_keeps true ih

/-- A node keeps a contract if all rules do. -/
theorem run_keeps_of_all (hc : ∀ id, Restores text Kept (call id))
    (hk : ∀ id, Keeps text Kept k 0 (call id)) (node : Node) :
    Keeps text Kept k 0 (node.run host call) := by
  have hconsumes (id : RuleId) (hi : (fun _ : RuleId => false) id = true) :
      Consumes text Kept (call id) :=
    absurd hi Bool.false_ne_true
  exact node.run_keeps host hc hconsumes (fun id _ => hk id) fun id => (hk id).mono (Nat.zero_le 1)

end Node
end Peg
