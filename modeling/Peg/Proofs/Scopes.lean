import Peg.Proofs.Places
import Peg.Proofs.Regeneration
import Peg.Proofs.Sites

/-! Labels in scope. Wherever a run comes by, the labels in scope are those that the check of labels
took to be visible there; for both go through an expression in the same way, but for sequences that
are elements of sequences, and those the notation does not have. So a block of code never sees two
labels of the same name. -/
namespace Peg

variable {σ α ε β : Type}

/-- The names of the labels in scope, innermost first. -/
def State.labels (s : State σ α) : List String := s.scope.map (·.1)

theorem State.labels_congr {s s' : State σ α} (h : s'.scope = s.scope) : s'.labels = s.labels := by
  rw [labels, labels, h]

/-- A match of the step leaves labels of these names bound, the last one innermost. -/
def Binds (names : List String) (m : Step σ α ε β) : Prop :=
  ∀ (s : State σ α) (value : β) (s' : State σ α), m s = (.matched value, s') →
    s'.labels = names.reverse ++ s.labels

theorem binds_of_keepsScope {m : Matcher σ α ε} (h : KeepsScope m) : Binds [] m := by
  intro s value s' hm
  have hscope := h s
  rw [hm] at hscope
  exact State.labels_congr hscope

namespace Node

def binds : Node → Bool
  | sequence _ | wrapped (.labeled _) _ => true
  | _ => false

variable {host : Host σ α ε} {call : RuleId → Matcher σ α ε} {ruleIndex : String → Option RuleId}

variable (hcall : ∀ id, KeepsScope (call id))

include hcall

/-- Only labels and sequences leave labels in scope. -/
theorem keepsScope_of_binds {node : Node} (hn : node.binds = false) :
    KeepsScope (node.run host call) := by
  cases node with
  | literal => rw [run]; exact Matcher.literal_keepsScope _ _
  | charClass => rw [run]; exact Matcher.char_keepsScope _ _
  | any => rw [run]; exact Matcher.char_keepsScope _ _
  | ruleRef id => rw [run]; exact hcall id
  | predicate => rw [run]; exact Matcher.predicate_keepsScope _ _ _
  | sequence nodes => cases hn
  | choice nodes => exact choice_keepsScope host call nodes
  | wrapped operator body =>
    rw [run]
    refine Operator.run_keepsScope host (fun label hl => ?_) _
    subst hl
    cases hn

/-- What becomes of an expression leaves the labels bound that the check takes to be visible behind
it, unless it is a sequence. -/
theorem run_binds_labels {e : Expr} {node : Node} (h : e.Becomes ruleIndex node)
    (hs : e.isSequence = false) : Binds e.labels (node.run host call) := by
  cases h with
  | wrapped span wrapper operator body node hw hb =>
    cases hw with
    | labeled label =>
      intro s value s' hm
      rcases he : node.run host call s with ⟨o, t⟩
      rw [run] at hm
      obtain ⟨ho, rfl⟩ := Prod.mk.inj ((Matcher.labeled_eq label he).symm.trans hm)
      rw [ho]
      rfl
    | _ => exact binds_of_keepsScope (keepsScope_of_binds hcall rfl)
  | sequence => cases hs
  | _ => exact binds_of_keepsScope (keepsScope_of_binds hcall rfl)

/-- Elements leave their labels bound, one behind the other. -/
theorem runSequence_binds {es : List Expr} {nodes : List Node}
    (h : List.Forall₂ (Expr.Becomes ruleIndex) es nodes) (hs : ∀ e ∈ es, e.isSequence = false) :
    Binds (es.flatMap Expr.labels) (runSequence host call nodes) := by
  induction h with
  | nil =>
    intro s value s' hm
    rw [runSequence] at hm
    cases hm
    rfl
  | @cons e node es nodes he _ ih =>
    intro s value s' hm
    rw [runSequence] at hm
    rcases hf : node.run host call s with ⟨o, t⟩
    rw [hf] at hm
    cases o with
    | failed => cases hm
    | aborted error => cases hm
    | matched first =>
      have hfirst := run_binds_labels hcall he (hs e List.mem_cons_self) s first t hf
      dsimp only at hm
      rcases hr : runSequence host call nodes t with ⟨o', t'⟩
      rw [hr] at hm
      cases o' with
      | failed => cases hm
      | aborted error => cases hm
      | matched values =>
        cases hm
        rw [ih (fun e hm => hs e (List.mem_cons_of_mem _ hm)) t values s' hr, hfirst,
          List.flatMap_cons, List.reverse_append, List.append_assoc]

theorem run_binds {e : Expr} {node : Node} (h : e.Becomes ruleIndex node)
    (hn : e.nestsSequence = false) : Binds e.bound (node.run host call) := by
  have hbecomes := h
  cases h with
  | sequence span es nodes hes =>
    intro s value s' hm
    rw [run] at hm
    rcases hr : runSequence host call nodes s with ⟨o, t⟩
    dsimp only at hm
    rw [hr] at hm
    cases o with
    | matched values =>
      cases hm
      rw [Expr.nestsSequence, List.any_eq_false] at hn
      exact runSequence_binds hcall hes (fun e he => Bool.eq_false_of_not_eq_true (hn e he)) s
        values s' hr
    | failed => cases hm
    | aborted error => cases hm
  | _ => exact run_binds_labels hcall hbecomes rfl

end Node

/-- The state is one in which the check has come to the expression: it finds nothing there, and the
labels that are visible to it are in scope. -/
structure Expr.Meets (env : LabelEnv) (e : Expr) (s : State σ α) : Prop where
  labels : s.labels = (env.map (·.1)).reverse
  distinct : e.Distinct (env.map (·.1))
  unnested : ∀ part ∈ e.subterms, part.nestsSequence = false

/-- Of expressions that become nodes, one becomes the node behind those in front. -/
theorem exists_getElem_of_forall₂ {R : Expr → Node → Prop} {es : List Expr} {front back : List Node}
    {node : Node} (h : List.Forall₂ R es (front ++ node :: back)) :
    ∃ e others, es = es.take front.length ++ e :: others ∧ es[front.length]? = some e ∧
      R e node := by
  obtain ⟨e, others, he, -, hdrop⟩ :=
    List.forall₂_cons_right_iff.mp (List.forall₂_drop_append es front (node :: back) h)
  refine ⟨e, others, ?_, ?_, he⟩
  · rw [← hdrop, List.take_append_drop]
  · rw [← Nat.add_zero front.length, ← List.getElem?_drop, hdrop]
    rfl

section Runs

variable {host : Host σ α ε} {call : RuleId → Matcher σ α ε} {ruleIndex : String → Option RuleId}
  (hcall : ∀ id, KeepsScope (call id))

include hcall

/-- A part is run where the check has come to it. -/
theorem Node.Enters.meets {node node' : Node} {s s' : State σ α} {i : Nat}
    (h : node.Enters host call s i node' s') {e : Expr} {env : LabelEnv}
    (hb : e.Becomes ruleIndex node) (hm : e.Meets env s) :
    ∃ env' e', e.enter? env i = some (env', e') ∧ e'.Becomes ruleIndex node' ∧
      e'.Meets env' s' := by
  induction h with
  | @element front node back values s s' before =>
    cases hb with
    | sequence span es _ hes =>
      obtain ⟨hlabels, hdistinct, hunnested⟩ := hm
      have hfront := List.forall₂_take_append es front (node :: back) hes
      obtain ⟨e, others, hes', hget, he⟩ := exists_getElem_of_forall₂ hes
      have hmem : e ∈ es := List.mem_of_getElem? hget
      rw [hes'] at hdistinct
      obtain ⟨env', hcheck, henv, hrest⟩ := Expr.exists_checkFront hdistinct
      rw [Expr.subterms, List.forall_mem_cons, Expr.forall_mem_subtermsOfAll, Expr.nestsSequence,
        List.any_eq_false] at hunnested
      have hbound := Node.runSequence_binds hcall hfront
        (fun e he => Bool.eq_false_of_not_eq_true (hunnested.1 e (List.mem_of_mem_take he)))
        s values s' before
      refine ⟨env', e, Expr.enter?_sequence.mpr ⟨hcheck, hget⟩, he, ?_,
        (Expr.distinct_sequence_cons.mp hrest).1, hunnested.2 e hmem⟩
      rw [hbound, hlabels, henv, List.reverse_append]
  | @alternative front node back s s' before =>
    cases hb with
    | choice span es _ hes =>
      obtain ⟨hlabels, hdistinct, hunnested⟩ := hm
      obtain ⟨e, others, -, hget, he⟩ := exists_getElem_of_forall₂ hes
      have hmem : e ∈ es := List.mem_of_getElem? hget
      rw [Expr.subterms, List.forall_mem_cons, Expr.forall_mem_subtermsOfAll] at hunnested
      refine ⟨env, e, by rw [Expr.enter?, hget]; rfl, he, ?_,
        Expr.distinct_choice.mp hdistinct e hmem, hunnested.2 e hmem⟩
      have hscope := Node.choice_keepsScope host call front s
      rw [Node.run, before] at hscope
      exact (State.labels_congr hscope).trans hlabels
  | @inside operator node s =>
    cases hb with
    | wrapped span wrapper _ body _ hw hbody =>
      obtain ⟨hlabels, hdistinct, hunnested⟩ := hm
      rw [Expr.subterms, List.forall_mem_cons] at hunnested
      have hscope : (operator.around s).labels = s.labels := by cases operator <;> rfl
      exact ⟨env, body, rfl, hbody, hscope.trans hlabels, (Expr.distinct_wrapped.mp hdistinct).2,
        hunnested.2⟩
  | again _ _ _ _ ih =>
    obtain ⟨env', e', he, hb', hlabels, hdistinct, hunnested⟩ := ih hb hm
    exact ⟨env', e', he, hb', hlabels, hdistinct, hunnested⟩

end Runs

section Grammar

variable {left : Grammar} {options : Options} {program : Program}
  (hb : left.Becomes options program) (hp : left.Plain)
  (hd : ∀ rule ∈ left.rules, rule.expr.Distinct [])

include hb hp hd

/-- The body of a rule is run with no labels in scope. -/
theorem exists_meets_body {id : RuleId} {rule : CompiledRule} (hr : program.rules[id]? = some rule)
    (s : State σ α) : ∃ found, left.rules[id]? = some found ∧
      found.expr.Becomes left.ruleIndex? rule.node ∧
      found.expr.Meets [] (s.entering program rule) := by
  obtain ⟨found, hi, -, hrule⟩ := hb.exists_source hr
  have hmem := List.mem_of_getElem? hi
  refine ⟨found, hi, hrule, rfl, hd _ hmem, ?_⟩
  have hbody := (hp.bodies _ hmem).unnested
  rcases found.body_cases with ⟨-, hroot⟩ | ⟨span, name, he⟩
  · rwa [hroot] at hbody
  · rw [he, Expr.subterms, List.forall_mem_cons]
    exact ⟨rfl, hbody⟩

/-- Wherever a run comes by, the check has come, too, and the labels in scope are those visible to
it. -/
theorem Program.Runs.meets {host : Host σ α ε} {limit depth : Nat} {start id : RuleId}
    {first s : State σ α} {path : List Nat} {node : Node}
    (h : program.Runs host limit start first depth id path node s) :
    ∃ rule env e, left.rules[id]? = some rule ∧ rule.expr.visit? [] path = some (env, e) ∧
      e.Becomes left.ruleIndex? node ∧ e.Meets env s := by
  induction h with
  | start _ found _ =>
    obtain ⟨rule, hi, hbody, hmeets⟩ := exists_meets_body hb hp hd found first
    exact ⟨rule, [], rule.expr, hi, rfl, hbody, hmeets⟩
  | part _ entered ih =>
    obtain ⟨rule, env, e, hi, hvisit, hbody, hmeets⟩ := ih
    obtain ⟨env', e', henter, hbody', hmeets'⟩ :=
      entered.meets (program.invoke_keepsScope host limit _) hbody hmeets
    exact ⟨rule, env', e', hi, (Expr.visit?_concat hvisit).trans henter, hbody', hmeets'⟩
  | @call _ _ _ _ _ s _ found _ _ =>
    obtain ⟨rule, hi, hbody, hmeets⟩ := exists_meets_body hb hp hd found s
    exact ⟨rule, [], rule.expr, hi, rfl, hbody, hmeets⟩

/-- A call of the host is made at a code block, which sees the labels that are visible to the check
there, and behind its operand, if it is an action, those that this leaves bound. -/
theorem Program.MadeAt.exists_site {host : Host σ α ε} {limit : Nat} {start id : RuleId}
    {first : State σ α} {path : List Nat} {made : Call α}
    (h : program.MadeAt host limit start first id path made) :
    ∃ site, left.siteAt? id path = some site ∧ made.kind = site.kind ∧ made.code = site.code ∧
      made.context.labels.map (·.1) = site.visible.map (·.1) ++ site.bound := by
  obtain ⟨depth, node, s, hruns, hmakes⟩ := h
  obtain ⟨rule, env, e, hi, hvisit, hbody, hlabels, -, hunnested⟩ := hruns.meets hb hp hd
  have hsite : left.siteAt? id path = e.site? env := by
    unfold Grammar.siteAt? Expr.siteAt?
    rw [hi, Option.bind_some, hvisit]
    rfl
  cases hmakes with
  | predicate =>
    cases hbody with
    | predicate span negated code =>
      refine ⟨_, hsite, rfl, rfl, ?_⟩
      dsimp only
      rw [List.map_reverse, List.append_nil]
      exact List.reverse_eq_iff.mpr hlabels
  | @action code body _ s' value matched =>
    cases hbody with
    | wrapped span wrapper _ operand _ hw hoperand =>
      cases hw
      have hinner : operand.nestsSequence = false :=
        hunnested operand (List.mem_cons_of_mem _ operand.mem_subterms_self)
      have hbound :=
        Node.run_binds (program.invoke_keepsScope host limit depth) hoperand hinner s value s'
          matched
      refine ⟨_, hsite, rfl, rfl, ?_⟩
      dsimp only
      rw [List.map_reverse]
      refine List.reverse_eq_iff.mpr (hbound.trans ?_)
      rw [hlabels, List.reverse_append]

end Grammar

/-- Where a grammar that was read from a text passes the check of labels, no block of code ever sees
two labels of the same name. Whatever passes are run, every call of the host in a parse, the one for
the initializer apart, is made at a code block of the grammar, and the labels in scope are, in
order, those that are visible to the check there and those that the operand of an action leaves
bound. -/
theorem calls_see_distinct_labels {text : String} {grammar : Grammar} {passes : Passes}
    {options : Options} {program : Program} (hparse : Grammar.parse text = .ok grammar)
    (hlabels : grammar.duplicateLabel? = none) (h : grammar.Compiles passes options program) :
    ∃ left, grammar.Leaves passes.all options left ∧ left.assemble options = .ok program ∧
      ∀ {σ α ε : Type} (host : Host σ α ε) (memory : σ) (input : String) (how : ParseOptions),
        ∀ made ∈ (program.parse host memory input how).calls, made.kind ≠ .initializer →
          ∃ id path site, program.CalledAt host memory input how id path made ∧
            left.siteAt? id path = some site ∧ grammar.HasSite site ∧
            made.kind = site.kind ∧ made.code = site.code ∧
            made.context.labels.map (·.1) = site.visible.map (·.1) ++ site.bound ∧
            (made.context.labels.map (·.1)).Nodup := by
  obtain ⟨left, notes, hrun, hassemble⟩ := Grammar.compiles_inv h
  have hleaves : grammar.Leaves passes.all options left := ⟨#[], notes, hrun⟩
  have hdistinct := Grammar.duplicateLabel?_eq_none_iff.mp hlabels
  have hplain := (Grammar.written_of_parse hparse).plain
  obtain ⟨hplain', hinherits⟩ := Grammar.inherits_of_leaves hleaves hplain hdistinct
  refine ⟨left, hleaves, hassemble, fun host memory input how made hm hkind => ?_⟩
  obtain ⟨id, path, hcalled⟩ := (Program.exists_place_of_call hm).resolve_left hkind
  have ⟨start, first, _, _, hmade⟩ := hcalled
  obtain ⟨site, hsite, hk, hc, hnames⟩ :=
    hmade.exists_site (Grammar.becomes_of_assemble hassemble) hplain' hinherits.distinct
  have hold : grammar.HasSite site := hinherits.sites ⟨id, path, hsite⟩
  refine ⟨id, path, site, hcalled, hsite, hold, hk, hc, hnames, ?_⟩
  obtain ⟨rule, hrule, hs⟩ := Grammar.hasSite_iff.mp hold
  rw [hnames]
  exact hs.nodup (hdistinct rule hrule) List.nodup_nil

/-- The action sees the label of its operand and no other. -/
theorem calls_see_distinct_labels_grouped : ∃ grammar left,
    Grammar.parse groupedText = .ok grammar ∧ grammar.duplicateLabel? = none ∧
      grammar.Compiles .standard {} groupedParser ∧ grammar.Leaves Passes.standard.all {} left ∧
      ∃ made ∈ (groupedParser.parse Host.script 0 "7-" {}).calls,
        made.kind = .action ∧ made.context.labels.map (·.1) = ["d"] ∧
        ∃ id path site, groupedParser.CalledAt Host.script 0 "7-" {} id path made ∧
          left.siteAt? id path = some site ∧ grammar.HasSite site ∧
          site.visible.map (·.1) ++ site.bound = ["d"] := by
  obtain ⟨grammar, hparse, hpassing, notes, notes', hfinish⟩ := generate_inv generate_groupedText
  obtain ⟨-, program, hprogram, hassemble⟩ | ⟨hsource, -⟩ := Grammar.finish_inv hfinish
  · cases hprogram
    have hcompiles : grammar.Compiles .standard {} groupedParser :=
      Grammar.compiles_of_yields rfl hpassing.yields_runPasses hassemble
    obtain ⟨left, hleaves, -, hcalls⟩ :=
      calls_see_distinct_labels hparse hpassing.duplicateLabels hcompiles
    obtain ⟨made, hm, hkind, hlabels⟩ : ∃ made ∈ (groupedParser.parse Host.script 0 "7-" {}).calls,
        made.kind = .action ∧ made.context.labels.map (·.1) = ["d"] := by
      decide +kernel
    obtain ⟨id, path, site, hcalled, hsite, hold, -, -, hnames, -⟩ :=
      hcalls Host.script 0 "7-" {} made hm (by rw [hkind]; nofun)
    exact ⟨grammar, left, hparse, hpassing.duplicateLabels, hcompiles, hleaves, made, hm, hkind,
      hlabels, id, path, site, hcalled, hsite, hold, hnames.symm.trans hlabels⟩
  · cases hsource

end Peg
