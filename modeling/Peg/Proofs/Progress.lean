import Peg.Proofs.Evaluation
import Peg.Proofs.Mirroring

/-! Progress. What the analysis takes to consume input whenever it matches moves the cursor in every
run, as the rules do that it finds on the way, recursive or not. So no repetition that the check
lets through comes to a round that consumes nothing; each ends where its body fails. -/
namespace Peg

variable {σ α ε : Type} {text : Cursor} {Kept : RuleId → Cursor → RuleResult α → Prop}

namespace Grammar

variable {grammar : Grammar} {options : Options} {program : Program}

/-- What the analysis finds of a rule it finds of the expression of the rule, too, with no rules in
its way. -/
theorem consumes_of_ruleConsumes {name : String}
    (h : grammar.ruleConsumes grammar.rules.length [] name = true) :
    ∃ rule, grammar.rule? name = some rule ∧ grammar.alwaysConsumes rule.expr = true := by
  cases hd : grammar.rules.length with
  | zero => rw [hd] at h; cases h
  | succ depth =>
    rw [hd, ruleConsumes, if_neg List.not_mem_nil] at h
    cases hr : grammar.rule? name with
    | none => rw [hr] at h; cases h
    | some rule =>
      rw [hr] at h
      have hle : depth ≤ grammar.rules.length := by omega
      exact ⟨rule, rfl,
        Expr.consumes_mono (fun _ hn => ruleConsumes_mono hle (List.nil_subset _) hn)
        h⟩

/-- The rule of the number is the one that its name refers to, and the analysis finds that it always
consumes input. -/
def advances (grammar : Grammar) (id : RuleId) : Bool :=
  grammar.rules[id]?.any fun rule => grammar.ruleIndex? rule.name == some id &&
    grammar.ruleConsumes grammar.rules.length [] rule.name

theorem advances_of_name {name : String} {id : RuleId} (hi : grammar.ruleIndex? name = some id)
    (hn : grammar.ruleConsumes grammar.rules.length [] name = true) :
    grammar.advances id = true := by
  obtain ⟨rule, hr, rfl, -⟩ := rule?_of_ruleIndex? hi
  rw [advances, hr, Option.any_some, hi, hn, beq_self_eq_true]
  rfl

theorem exists_name_of_advances {id : RuleId} (h : grammar.advances id = true) :
    ∃ name, grammar.ruleIndex? name = some id ∧
      grammar.ruleConsumes grammar.rules.length [] name = true := by
  unfold advances at h
  cases hr : grammar.rules[id]? with
  | none => rw [hr] at h; cases h
  | some rule =>
    rw [hr, Option.any_some, Bool.and_eq_true, beq_iff_eq] at h
    exact ⟨rule.name, h⟩

/-- The node consumes input, going by what the analysis finds of rules, if it finds the expression
to do so. -/
theorem consumes_of_alwaysConsumes {e : Expr} {node : Node} {forSpeed : Bool}
    {expectations : Array Expectation}
    (hd : e.Denotes grammar.ruleIndex? forSpeed expectations node)
    (h : grammar.alwaysConsumes e = true) : node.consumes grammar.advances = true :=
  hd.becomes.consumes (fun _ _ => advances_of_name) h

/-- What the analysis finds of rules hangs together. -/
theorem Denotes.consumes_of_advances (h : grammar.Denotes options program) (id : RuleId)
    (found : CompiledRule) (hr : program.rules[id]? = some found)
    (ha : grammar.advances id = true) : found.node.consumes grammar.advances = true := by
  obtain ⟨name, hi, hn⟩ := exists_name_of_advances ha
  obtain ⟨rule, found', hrule, hfound, -, hd⟩ := h.exists_found hi
  obtain ⟨rule', hrule', hc⟩ := consumes_of_ruleConsumes hn
  cases hrule.symm.trans hrule'
  cases hr.symm.trans hfound
  exact consumes_of_alwaysConsumes hd hc

end Grammar

section Denoting

variable {ruleIndex : String → Option RuleId} {forSpeed : Bool} {expectations : Array Expectation}

/-- The part of a node that is run is denoted by a part of what denotes the node. -/
theorem Node.Enters.denotes {host : Host σ α ε} {call : RuleId → Matcher σ α ε} {node node' : Node}
    {s s' : State σ α} {i : Nat} (h : node.Enters host call s i node' s') {e : Expr}
    (hd : e.Denotes ruleIndex forSpeed expectations node) :
    ∃ part ∈ e.subterms, part.Denotes ruleIndex forSpeed expectations node' := by
  induction h with
  | @element front node back =>
    cases hd with
    | sequence span es _ hes =>
      obtain ⟨part, -, -, hget, hpart⟩ := exists_getElem_of_forall₂ hes
      refine ⟨part, ?_, hpart⟩
      rw [Expr.subterms]
      exact List.mem_cons_of_mem _ (Expr.mem_subtermsOfAll.mpr
        ⟨part, List.mem_of_getElem? hget, part.mem_subterms_self⟩)
  | @alternative front node back =>
    cases hd with
    | choice span es _ hes =>
      obtain ⟨part, -, -, hget, hpart⟩ := exists_getElem_of_forall₂ hes
      refine ⟨part, ?_, hpart⟩
      rw [Expr.subterms]
      exact List.mem_cons_of_mem _ (Expr.mem_subtermsOfAll.mpr
        ⟨part, List.mem_of_getElem? hget, part.mem_subterms_self⟩)
  | inside =>
    cases hd with
    | wrapped span wrapper _ body _ _ hb =>
      refine ⟨body, ?_, hb⟩
      rw [Expr.subterms]
      exact List.mem_cons_of_mem _ body.mem_subterms_self
  | again _ _ _ _ ih => exact ih hd

/-- Repetitions are denoted by repetitions. -/
theorem Expr.Denotes.exists_repeated {e : Expr} {operator : Operator} {body : Node}
    (h : e.Denotes ruleIndex forSpeed expectations (.wrapped operator body))
    (ho : operator = .zeroOrMore ∨ operator = .oneOrMore) :
    ∃ inner, e.asRepetition? = some inner ∧
      inner.Denotes ruleIndex forSpeed expectations body := by
  cases h with
  | wrapped span wrapper _ inner _ hw hb =>
    refine ⟨inner, ?_, hb⟩
    obtain rfl | rfl := ho
    · cases hw.becomes
      rfl
    · cases hw.becomes
      rfl

end Denoting

variable {grammar : Grammar} {options : Options} {program : Program}

theorem Grammar.Denotes.exists_rule_denotes (h : grammar.Denotes options program) {id : RuleId}
    {found : CompiledRule} (hr : program.rules[id]? = some found) :
    ∃ e ∈ grammar.subterms, e.Denotes grammar.ruleIndex? (options.optimize == .speed)
      program.expectations found.node := by
  obtain ⟨rule, hrule, he⟩ := h.exists_source hr
  exact ⟨rule.expr, List.mem_flatMap.mpr ⟨rule, hrule, rule.expr.mem_subterms_self⟩, he⟩

/-- Wherever a run comes by, the node is denoted by an expression of the grammar. -/
theorem Program.Runs.denotes (hp : grammar.Denotes options program) {host : Host σ α ε}
    {limit depth : Nat} {start id : RuleId} {first s : State σ α} {path : List Nat} {node : Node}
    (h : program.Runs host limit start first depth id path node s) :
    ∃ e ∈ grammar.subterms, e.Denotes grammar.ruleIndex? (options.optimize == .speed)
      program.expectations node := by
  induction h with
  | start _ found _ => exact hp.exists_rule_denotes found
  | part _ entered ih =>
    obtain ⟨e, hm, hd⟩ := ih
    obtain ⟨part, hpart, hd'⟩ := entered.denotes hd
    obtain ⟨rule, hrule, he⟩ := List.mem_flatMap.mp hm
    exact ⟨part, List.mem_flatMap.mpr ⟨rule, hrule, Expr.mem_subterms_trans hpart he⟩, hd'⟩
  | call _ found _ _ => exact hp.exists_rule_denotes found

namespace Matcher

/-- Rounds that all consume input end where the body fails, unless the parse ends in one. `Round`
holds of the states in which rounds begin. -/
theorem exists_failed_round {m : Matcher σ α ε} {Round : State σ α → Prop}
    (hr : Restores text Kept m) (hc : Consumes text Kept m)
    (hnext : ∀ {s t : State σ α} {value : Value α}, Round s → m s = (.matched value, t) →
      t.cursor.offset ≠ s.cursor.offset → Round { t with scope := s.scope })
    {bound : List Char} {s s' : State σ α} {values : List (Value α)} (hs : s.Sound text Kept)
    (hround : Round s) (hb : s.cursor.rest.length ≤ bound.length)
    (h : Rounds m bound s (.matched values) s') : ∃ t t', Round t ∧ m t = (.failed, t') := by
  generalize ho : Outcome.matched values = o at h
  induction h generalizing values with
  | @failed bound s t h => exact ⟨s, t, hround, h⟩
  | aborted h => cases ho
  | @last bound s t value h hend =>
    have hlt := hc s t value hs h
    have hp := h ▸ hr s hs
    have hrest := Cursor.rest_length_lt_of_reaches hp.2.2.1 (Nat.ne_of_gt hlt)
    rw [hend.resolve_left (Nat.ne_of_gt hlt), List.length_nil] at hb
    omega
  | @again c bound s t s' value o h hmoved hrounds ih =>
    obtain ⟨others, rfl, -⟩ := Outcome.map_eq_matched.mp ho.symm
    have hp := h ▸ hr s hs
    have hrest := Cursor.rest_length_lt_of_reaches hp.2.2.1 hmoved
    rw [List.length_cons] at hb
    exact ih ⟨hp.1.inText, hp.1.kept⟩ (hnext hround h hmoved)
      (Nat.le_of_lt_succ (Nat.lt_of_lt_of_le hrest hb)) rfl

/-- A repetition that does not end the parse has come to the end of its rounds. -/
theorem rounds_of_repeated {m : Matcher σ α ε} {needsOne : Bool} {s s' : State σ α}
    {o : Outcome ε (Value α)} (h : repeated needsOne m s = (o, s')) (ho : ∀ e, o ≠ .aborted e) :
    ∃ values, Rounds m s.cursor.rest s (.matched values) s' := by
  obtain ⟨o', t, hrounds⟩ := exists_rounds m s.cursor.rest s
  rw [repeated_eq needsOne hrounds] at h
  cases o' with
  | matched values => cases h; exact ⟨values, hrounds⟩
  | failed => exact absurd rfl hrounds.ne_failed
  | aborted e => cases h; exact absurd rfl (ho e)

end Matcher

namespace Grammar

/-- The analysis of emptiness is sound. In a parse with the program of a grammar, only nodes are run
that expressions of the grammar denote; and a match of one that the analysis finds to consume input
always moves the cursor on. So if the check of repetitions finds nothing, every round of every
repetition that matches moves the cursor on, and a repetition only comes to its end in a round that
fails. -/
theorem consuming_advances (h : grammar.assemble options = .ok program) (host : Host σ α ε)
    (memory : σ) (input : String) (how : ParseOptions) {depth : Nat} {node : Node} {s : State σ α}
    (heval : program.Evaluates host memory input how depth node s) :
    let call := program.invoke host how.maxDepth depth
    let Denotes (e : Expr) := e.Denotes grammar.ruleIndex? (options.optimize == .speed)
      program.expectations
    (∃ e ∈ grammar.subterms, Denotes e node) ∧
    (∀ e, Denotes e node → grammar.alwaysConsumes e = true → ∀ value s',
      node.run host call s = (.matched value, s') → s.cursor.offset < s'.cursor.offset) ∧
    (grammar.emptyRepetition? = none → ∀ operator body, node = .wrapped operator body →
      operator = .zeroOrMore ∨ operator = .oneOrMore →
      (∀ t value t', node.Enters host call s 0 body t →
        body.run host call t = (.matched value, t') → t.cursor.offset < t'.cursor.offset) ∧
      ∀ o s', node.run host call s = (o, s') → (∀ e, o ≠ .aborted e) →
        ∃ t t', node.Enters host call s 0 body t ∧ body.run host call t = (.failed, t')) := by
  intro call Denotes
  have hp := denotes_of_assemble h
  have hk := hp.consumes_of_advances
  have hs := heval.sound hk
  have hgives (id : RuleId) : Gives (.ofText input) (RuleResult.Lawful grammar.advances) id
      (call id) :=
    Program.invoke_gives program host how.maxDepth hk depth id
  have hrestores (id : RuleId) := restores_of_gives (hgives id)
  have hadvances (e : Expr) (node : Node) (hd : Denotes e node)
      (hc : grammar.alwaysConsumes e = true) :
      Consumes (.ofText input) (RuleResult.Lawful grammar.advances) (node.run host call) :=
    Node.run_consumes host hrestores (fun id => consumes_of_gives (hgives id)) node
      (consumes_of_alwaysConsumes hd hc)
  have hdenoted : ∃ e ∈ grammar.subterms, Denotes e node := by
    obtain ⟨start, first, id, path, -, -, hruns⟩ := heval
    exact hruns.denotes hp
  refine ⟨hdenoted, fun e hd hc value s' hrun => hadvances e node hd hc s s' value hs hrun,
    fun hnone operator body hnode hoperator => ?_⟩
  subst hnode
  obtain ⟨e, hm, hd⟩ := hdenoted
  obtain ⟨rule, hrule, he⟩ := List.mem_flatMap.mp hm
  obtain ⟨inner, hrepeats, hinner⟩ := hd.exists_repeated hoperator
  have hbody : Consumes (.ofText input) (RuleResult.Lawful grammar.advances)
      (body.run host call) :=
    hadvances inner body hinner
      (emptyRepetition?_eq_none_iff.mp hnone rule hrule e he inner hrepeats)
  refine ⟨fun t value t' hround hrun => hbody t t' value (hround.sound hrestores hs) hrun,
    fun o s' hrun ho => ?_⟩
  have hinside : (Node.wrapped operator body).Enters host call s 0 body s := by
    obtain rfl | rfl := hoperator
    · exact .inside
    · exact .inside
  have hrounds : ∃ values,
      Matcher.Rounds (body.run host call) s.cursor.rest s (.matched values) s' := by
    rw [Node.run] at hrun
    obtain rfl | rfl := hoperator
    · exact Matcher.rounds_of_repeated hrun ho
    · exact Matcher.rounds_of_repeated hrun ho
  obtain ⟨values, hrounds⟩ := hrounds
  -- Each round moves on, so the bound on the rounds is not what ends them.
  exact Matcher.exists_failed_round (Node.run_restores host hrestores body) hbody
    (fun hround hmatched hmoved => .again hoperator hround hmatched hmoved) hs hinside
    (Nat.le_refl _) hrounds

/-- Two rules: `start = item+` and `item = "a" / "(" item ")"`, the second one recursive. -/
def itemsGrammar : Grammar where
  initializer := none
  rules := [
    ⟨"start", .wrapped .none .oneOrMore (.ruleRef .none "item"), .none⟩,
    ⟨"item", .choice .none [.literal .none ⟨"a", false⟩, .sequence .none [
      .literal .none ⟨"(", false⟩, .ruleRef .none "item", .literal .none ⟨")", false⟩]], .none⟩]
  span := .none

def itemsParser : Program := (itemsGrammar.assemble {}).toOption.get (by decide +kernel)

theorem assemble_itemsGrammar : itemsGrammar.assemble {} = .ok itemsParser := by
  have h : (itemsGrammar.assemble {}).toOption = some itemsParser := (Option.some_get _).symm
  cases hm : itemsGrammar.assemble {} with
  | error e => rw [hm] at h; cases h
  | ok program => rw [hm] at h; exact congrArg Except.ok (Option.some.inj h)

/-- The items of `a(a)` move the cursor on, and the repetition ends where there is no further
one. -/
theorem consuming_advances_items :
    itemsGrammar.assemble {} = .ok itemsParser ∧ itemsGrammar.emptyRepetition? = none ∧
    let host : Host Unit Unit := Host.refusing
    let call := itemsParser.invoke host 512 511
    ∃ rule body s value s' t t', itemsParser.rules[0]? = some rule ∧
      rule.node = .wrapped .oneOrMore body ∧
      itemsParser.Evaluates host () "a(a)" {} 511 rule.node s ∧
      rule.node.run host call s = (.matched value, s') ∧ s.cursor.offset < s'.cursor.offset ∧
      rule.node.Enters host call s 0 body t ∧ body.run host call t = (.failed, t') := by
  have hnone : itemsGrammar.emptyRepetition? = none :=
    Option.isNone_iff_eq_none.mp (by decide +kernel)
  refine ⟨assemble_itemsGrammar, hnone, ?_⟩
  intro host call
  have hp := denotes_of_assemble assemble_itemsGrammar
  obtain ⟨rule, others, ⟨-, hd⟩, -, hrules⟩ := List.forall₂_cons_left_iff.mp hp.rules
  have hr : itemsParser.rules[0]? = some rule := by
    rw [← Array.getElem?_toList, hrules]
    rfl
  obtain ⟨body, hnode⟩ : ∃ body, rule.node = .wrapped .oneOrMore body := by
    generalize rule.node = node at hd
    cases hd with
    | wrapped _ _ operator _ body hw _ => cases hw.becomes; exact ⟨body, rfl⟩
  have hmatches : (itemsParser.rules[0]?.any fun rule =>
      match rule.node.run host call ((State.initial "a(a)" ()).entering itemsParser rule) with
      | (.matched _, _) => true
      | (.failed, _) | (.aborted _, _) => false) = true := by
    decide +kernel
  rw [hr, Option.any_some] at hmatches
  have heval : itemsParser.Evaluates host () "a(a)" {} 511 rule.node
      ((State.initial "a(a)" ()).entering itemsParser rule) :=
    ⟨0, _, 0, [], by decide +kernel, rfl, .start rfl hr rfl⟩
  obtain ⟨-, hon, hrounds⟩ :=
    consuming_advances assemble_itemsGrammar host () "a(a)" {} heval
  rcases hrun : rule.node.run host call ((State.initial "a(a)" ()).entering itemsParser rule)
    with ⟨o, s'⟩
  rw [hrun] at hmatches
  cases o with
  | matched value =>
    obtain ⟨-, hends⟩ := hrounds hnone .oneOrMore body hnode (Or.inr rfl)
    obtain ⟨t, t', hround, hfails⟩ := hends _ s' hrun (Outcome.matched_ne_aborted value)
    exact ⟨rule, body, _, value, s', t, t', hr, hnode, heval, hrun,
      hon _ hd (by decide +kernel) value s' hrun, hround, hfails⟩
  | failed => cases hmatches
  | aborted e => cases hmatches

end Grammar
end Peg
