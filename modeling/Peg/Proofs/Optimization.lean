import Peg.Proofs.ClassSearch
import Peg.Proofs.Regeneration

/-! The optimization hint. Made for speed or for size, a grammar becomes two programs that differ in
how choices are nested and in how classes are searched. Neither makes a difference to what a parse
shows, as long as the classes of the grammar can be searched by halving. All classes that are read
from a text can. -/
namespace Peg

namespace Expr

def isSearchableRoot : Expr → Bool
  | charClass _ members => decide (ClassMatcher.Searchable (ClassMatcher.rangesOf members.parts))
  | _ => true

def Searchable (e : Expr) : Prop := ∀ part ∈ e.subterms, part.isSearchableRoot = true

instance (e : Expr) : Decidable e.Searchable :=
  inferInstanceAs (Decidable (∀ part ∈ e.subterms, part.isSearchableRoot = true))

theorem searchable_charClass {span : Span} {members : CharClass} :
    (charClass span members).Searchable ↔
      ClassMatcher.Searchable (ClassMatcher.rangesOf members.parts) := by
  have hpart : (charClass span members).subterms = [charClass span members] := rfl
  rw [Searchable, hpart, List.forall_mem_singleton, isSearchableRoot, decide_eq_true_iff]

theorem searchable_sequence {span : Span} {es : List Expr} :
    (sequence span es).Searchable ↔ ∀ e ∈ es, e.Searchable := by
  simp only [Searchable, subterms, List.forall_mem_cons, forall_mem_subtermsOfAll,
    isSearchableRoot, true_and]

theorem searchable_choice {span : Span} {es : List Expr} :
    (choice span es).Searchable ↔ ∀ e ∈ es, e.Searchable := by
  simp only [Searchable, subterms, List.forall_mem_cons, forall_mem_subtermsOfAll,
    isSearchableRoot, true_and]

theorem searchable_wrapped {span : Span} {wrapper : Wrapper} {body : Expr} :
    (wrapped span wrapper body).Searchable ↔ body.Searchable := by
  simp only [Searchable, subterms, List.forall_mem_cons, isSearchableRoot, true_and]

/-- What can be written has the ends of all ranges in order. -/
theorem Spelled.searchable {e : Expr} (h : e.Spelled) : e.Searchable := by
  intro part hp
  have hs := h part hp
  cases part with
  | charClass span members =>
    refine decide_eq_true (ClassMatcher.searchable_rangesOf fun part hpart => ?_)
    exact of_decide_eq_true (List.all_eq_true.mp hs part hpart)
  | literal | any | ruleRef | predicate | sequence | choice | wrapped => rfl

/-- References are of no account for classes. -/
theorem searchable_redirect (old new : String) {e : Expr} (h : e.Searchable) :
    (e.rebuild (redirectRef old new)).Searchable := by
  induction e using Expr.induct with
  | literal | charClass | any | predicate => exact h
  | ruleRef span name =>
    intro part hp
    have hpart : ((ruleRef span name).rebuild (redirectRef old new)).subterms =
        [ruleRef span (if name = old then new else name)] := rfl
    rw [hpart, List.mem_singleton] at hp
    rw [hp]
    rfl
  | sequence span elements ih =>
    rw [rebuild, rebuildAll_eq_map]
    refine searchable_sequence.mpr fun e' hm => ?_
    obtain ⟨e, he, rfl⟩ := List.mem_map.mp hm
    exact ih e he (searchable_sequence.mp h e he)
  | choice span alternatives ih =>
    rw [rebuild, rebuildAll_eq_map]
    refine searchable_choice.mpr fun e' hm => ?_
    obtain ⟨e, he, rfl⟩ := List.mem_map.mp hm
    exact ih e he (searchable_choice.mp h e he)
  | wrapped span wrapper body ih =>
    rw [rebuild]
    exact searchable_wrapped.mpr (ih (searchable_wrapped.mp h))

end Expr

namespace Grammar

def Searchable (grammar : Grammar) : Prop := ∀ rule ∈ grammar.rules, rule.expr.Searchable

instance (grammar : Grammar) : Decidable grammar.Searchable :=
  inferInstanceAs (Decidable (∀ rule ∈ grammar.rules, rule.expr.Searchable))

variable {grammar : Grammar}

theorem Searchable.removeProxies (h : grammar.Searchable) (names : List String) :
    (grammar.removeProxies names).1.Searchable := by
  refine removeProxies_preserves names (fun grammar _ proxy target _ _ h rule' hm => ?_)
    (fun grammar rules hs h rule hm => h rule (hs.subset hm)) h
  obtain ⟨rule, hr, rfl⟩ := List.mem_map.mp hm
  exact Expr.searchable_redirect proxy.name target (h rule hr)

/-- The classes of a grammar that is read from a text can be searched by halving. -/
theorem searchable_of_parse {text : String} (h : parse text = .ok grammar) :
    grammar.Searchable := by
  intro rule hm
  have hbody := ((written_of_parse h).writable.bodies rule hm).searchable
  unfold Rule.body Expr.asNamed? at hbody
  split at hbody
  · rename_i span name body he
    rw [he]
    exact Expr.searchable_wrapped.mpr hbody
  · exact hbody

end Grammar

def Node.RunsAs (node node' : Node) : Prop :=
  ∀ {σ α ε : Type} (host : Host σ α ε) (call : RuleId → Matcher σ α ε),
    node'.run host call = node.run host call

namespace Node

variable {nodes nodes' : List Node}

theorem RunsAs.refl (node : Node) : node.RunsAs node := fun _ _ => rfl

theorem runsAs_charClass {matcher matcher' : ClassMatcher} (h : matcher'.accepts = matcher.accepts)
    (id : ExpectationId) : (charClass matcher id).RunsAs (charClass matcher' id) := by
  intro σ α ε host call
  rw [run, run, h]

theorem runsAs_sequence (h : List.Forall₂ RunsAs nodes nodes') :
    (sequence nodes).RunsAs (sequence nodes') := by
  intro σ α ε host call
  have hall : runSequence host call nodes' = runSequence host call nodes := by
    induction h with
    | nil => rfl
    | cons hn _ ih =>
      funext s
      rw [runSequence, runSequence, hn host call, ih]
  rw [run, run, hall]

theorem runsAs_choice (h : List.Forall₂ RunsAs nodes nodes') :
    (choice nodes).RunsAs (choice nodes') := by
  intro σ α ε host call
  have hall : runChoice host call nodes' = runChoice host call nodes := by
    induction h with
    | nil => rfl
    | cons hn _ ih =>
      funext s
      rw [runChoice, runChoice, hn host call, ih]
  rw [run, run, hall]

theorem RunsAs.wrapped {node node' : Node} (h : node.RunsAs node') (operator : Operator) :
    (Node.wrapped operator node).RunsAs (Node.wrapped operator node') := by
  intro σ α ε host call
  rw [run, run, h host call]

end Node

namespace Program

/-- The second program has other nodes, which do the same. -/
structure RunsAs (p q : Program) : Prop where
  rules : List.Forall₂ (fun rule rule' => rule'.name = rule.name ∧ rule.node.RunsAs rule'.node)
    p.rules.toList q.rules.toList
  rest : q = { p with rules := q.rules }

variable {σ α ε : Type} {p q : Program}

theorem RunsAs.rules_cases (h : p.RunsAs q) (id : RuleId) :
    (p.rules[id]? = none ∧ q.rules[id]? = none) ∨
    ∃ rule rule', p.rules[id]? = some rule ∧ q.rules[id]? = some rule' ∧
      rule'.name = rule.name ∧ rule.node.RunsAs rule'.node := by
  have hlen := h.rules.length_eq
  rw [Array.length_toList, Array.length_toList] at hlen
  by_cases hid : id < p.rules.size
  · refine Or.inr ⟨p.rules[id], q.rules[id], Array.getElem?_eq_getElem hid,
      Array.getElem?_eq_getElem (hlen ▸ hid), ?_⟩
    exact h.rules.get (by rwa [Array.length_toList]) (by rw [Array.length_toList]; exact hlen ▸ hid)
  · have hge := Nat.not_lt.mp hid
    exact Or.inl ⟨Array.getElem?_eq_none hge, Array.getElem?_eq_none (hlen ▸ hge)⟩

/-- Rules do the same if their nodes do. -/
theorem RunsAs.invoke_eq (h : p.RunsAs q) (host : Host σ α ε) (limit depth : Nat) :
    q.invoke host limit depth = p.invoke host limit depth := by
  have htraced : q.traced = p.traced := by rw [h.rest]
  have hcached : q.cached = p.cached := by rw [h.rest]
  induction depth with
  | zero =>
    funext id s
    rcases h.rules_cases id with ⟨hp, hq⟩ | ⟨rule, rule', hp, hq, hname, -⟩
    · rw [invoke_unknown p host limit hp, invoke_unknown q host limit hq]
    · simp only [invoke, enter, hp, hq, State.trace, State.leave, State.memoized?, hname, htraced,
        hcached]
  | succ depth ih =>
    funext id s
    rcases h.rules_cases id with ⟨hp, hq⟩ | ⟨rule, rule', hp, hq, hname, hrun⟩
    · rw [invoke_unknown p host limit hp, invoke_unknown q host limit hq]
    · simp only [invoke, enter, evaluate, hp, hq, ih, hrun host, State.trace, State.leave,
        State.memoized?, State.remember, hname, htraced, hcached]

theorem RunsAs.findStart_eq (h : p.RunsAs q) (startRule : Option String) :
    q.findStart startRule = p.findStart startRule := by
  have hname (id : RuleId) : q.ruleName? id = p.ruleName? id := by
    unfold ruleName?
    rcases h.rules_cases id with ⟨hp, hq⟩ | ⟨rule, rule', hp, hq, hname, -⟩
    · rw [hp, hq]
    · rw [hp, hq, Option.map_some, Option.map_some, hname]
  have hstarts : q.startRules = p.startRules := by rw [h.rest]
  simp only [findStart, startRule?, hname, hstarts]

/-- Programs whose nodes do the same parse every input to the same. -/
theorem RunsAs.parse_eq (h : p.RunsAs q) (host : Host σ α ε) (memory : σ) (input : String)
    (how : ParseOptions) : q.parse host memory input how = p.parse host memory input how := by
  have hinvoke (s : State σ α) (start : RuleId) :
      q.runFrom host how.maxDepth start s = p.runFrom host how.maxDepth start s := by
    have hinit : q.initializer = p.initializer := by rw [h.rest]
    simp only [runFrom, runInitializer, h.invoke_eq host, hinit]
  have hanswer (o : Outcome ε (Value α)) (s : State σ α) :
      q.answer how.allowRest o s = p.answer how.allowRest o s := by
    rw [h.rest]
    rfl
  simp only [parse, h.findStart_eq, hinvoke, hanswer]

end Program

namespace Expr

variable {ruleIndex : String → Option RuleId} {forSpeed forSpeed' : Bool}
  {table table' : List Expectation}

theorem exists_assembleAll_runsAs {es : List Expr} {nodes : List Node}
    (he : ∀ e ∈ es, ∀ (node : Node) (table table' : List Expectation),
      e.assemble ruleIndex forSpeed table = .ok (node, table') →
      ∃ node', e.assemble ruleIndex forSpeed' table = .ok (node', table') ∧ node.RunsAs node')
    (h : assembleAll ruleIndex forSpeed es table = .ok (nodes, table')) :
    ∃ nodes', assembleAll ruleIndex forSpeed' es table = .ok (nodes', table') ∧
      List.Forall₂ Node.RunsAs nodes nodes' := by
  induction es generalizing nodes table table' with
  | nil =>
    rw [assembleAll] at h
    cases h
    exact ⟨[], by rw [assembleAll]; rfl, .nil⟩
  | cons e es ih =>
    rw [assembleAll] at h
    obtain ⟨node, middle, hn, h⟩ := Assembler.bind_inv h
    obtain ⟨rest, last, hr, h⟩ := Assembler.bind_inv h
    cases h
    obtain ⟨node', hn', hruns⟩ := he e List.mem_cons_self node table middle hn
    obtain ⟨rest', hr', hall⟩ := ih (fun e hm => he e (List.mem_cons_of_mem _ hm)) hr
    refine ⟨node' :: rest', ?_, .cons hruns hall⟩
    rw [assembleAll, Assembler.bind_ok hn', Assembler.bind_ok hr']
    rfl

/-- Made for speed or for size, an expression becomes nodes that do the same. -/
theorem exists_assemble_runsAs {e : Expr} (hs : e.Searchable) {node : Node}
    (h : e.assemble ruleIndex forSpeed table = .ok (node, table')) :
    ∃ node', e.assemble ruleIndex forSpeed' table = .ok (node', table') ∧ node.RunsAs node' := by
  induction e using Expr.induct generalizing node table table' with
  | literal | any | ruleRef | predicate =>
    rw [assemble] at h
    exact ⟨node, by rw [assemble]; exact h, Node.RunsAs.refl node⟩
  | charClass span members =>
    rw [assemble] at h
    obtain ⟨id, middle, hi, h⟩ := Assembler.bind_inv h
    cases h
    refine ⟨_, by rw [assemble, Assembler.bind_ok hi]; rfl, Node.runsAs_charClass ?_ id⟩
    exact ClassMatcher.accepts_ofClass (searchable_charClass.mp hs) forSpeed' forSpeed
  | sequence span elements ih =>
    rw [assemble] at h
    obtain ⟨nodes, middle, hn, h⟩ := Assembler.bind_inv h
    cases h
    obtain ⟨nodes', hn', hruns⟩ := exists_assembleAll_runsAs
      (fun e hm _ _ _ h => ih e hm (searchable_sequence.mp hs e hm) h) hn
    exact ⟨_, by rw [assemble, Assembler.bind_ok hn']; rfl, Node.runsAs_sequence hruns⟩
  | choice span alternatives ih =>
    rw [assemble] at h
    obtain ⟨nodes, middle, hn, h⟩ := Assembler.bind_inv h
    cases h
    obtain ⟨nodes', hn', hruns⟩ := exists_assembleAll_runsAs
      (fun e hm _ _ _ h => ih e hm (searchable_choice.mp hs e hm) h) hn
    exact ⟨_, by rw [assemble, Assembler.bind_ok hn']; rfl, Node.runsAs_choice hruns⟩
  | wrapped span wrapper body ih =>
    rw [assemble] at h
    obtain ⟨operator, middle, ho, h⟩ := Assembler.bind_inv h
    obtain ⟨node, last, hn, h⟩ := Assembler.bind_inv h
    cases h
    obtain ⟨node', hn', hruns⟩ := ih (searchable_wrapped.mp hs) hn
    exact ⟨_, by rw [assemble, Assembler.bind_ok ho, Assembler.bind_ok hn']; rfl,
      hruns.wrapped operator⟩

end Expr

namespace Grammar

variable {grammar : Grammar} {options : Options}

theorem exists_assembleRules_runsAs {ruleIndex : String → Option RuleId} {forSpeed forSpeed' : Bool}
    {rules : List Rule} (hs : ∀ rule ∈ rules, rule.expr.Searchable) {found : List CompiledRule}
    {table table' : List Expectation}
    (h : (rules.mapM fun rule => (return ⟨rule.name,
        ← rule.expr.assemble ruleIndex forSpeed⟩ : Assembler CompiledRule)) table =
      .ok (found, table')) :
    ∃ found', (rules.mapM fun rule => (return ⟨rule.name,
        ← rule.expr.assemble ruleIndex forSpeed'⟩ : Assembler CompiledRule)) table =
      .ok (found', table') ∧ List.Forall₂ (fun rule rule' => rule'.name = rule.name ∧
        rule.node.RunsAs rule'.node) found found' := by
  induction rules generalizing found table table' with
  | nil =>
    cases h
    exact ⟨[], rfl, .nil⟩
  | cons rule rules ih =>
    rw [List.mapM_cons] at h
    obtain ⟨first, middle, hf, h⟩ := Assembler.bind_inv h
    obtain ⟨rest, last, hr, h⟩ := Assembler.bind_inv h
    cases h
    obtain ⟨node, middle, hn, hf⟩ := Assembler.bind_inv hf
    cases hf
    obtain ⟨node', hn', hruns⟩ := Expr.exists_assemble_runsAs (hs rule List.mem_cons_self) hn
    obtain ⟨rest', hr', hall⟩ := ih (fun rule hm => hs rule (List.mem_cons_of_mem _ hm)) hr
    refine ⟨⟨rule.name, node'⟩ :: rest', ?_, .cons ⟨rfl, hruns⟩ hall⟩
    rw [List.mapM_cons, Assembler.bind_ok (Assembler.bind_ok hn'), Assembler.bind_ok hr']
    rfl

/-- Without transformations, the hint makes a difference to nodes only, which do the same. -/
theorem exists_assemble_runsAs (hs : grammar.Searchable) {program : Program}
    (h : grammar.assemble options = .ok program) (hint : Optimization) :
    ∃ other, grammar.assemble { options with optimize := hint } = .ok other ∧
      program.RunsAs other := by
  obtain ⟨⟨rules, table⟩, hr, h⟩ := bind_eq_ok h
  obtain ⟨startRules, hstart, h⟩ := bind_eq_ok h
  obtain ⟨⟨endExpectation, last⟩, he, h⟩ := bind_eq_ok h
  cases h
  obtain ⟨rules', hr', hruns⟩ := exists_assembleRules_runsAs hs hr
  exact ⟨_, (bind_of_ok hr').trans ((bind_of_ok hstart).trans (bind_of_ok he)), hruns, rfl⟩

/-- If its classes can be searched by halving, a grammar becomes parsers for speed and for size that
parse every input to the same, with the same events and calls. -/
theorem optimize_keeps_parses (hs : grammar.Searchable) {program : Program}
    (h : grammar.Compiles .standard options program) (hint : Optimization) :
    ∃ other, grammar.Compiles .standard { options with optimize := hint } other ∧
      ∀ {σ α ε : Type} (host : Host σ α ε) (memory : σ) (input : String) (how : ParseOptions),
        other.parse host memory input how = program.parse host memory input how := by
  have ho := output_of_compiles h
  obtain ⟨left, notes, hl, hprogram⟩ := compiles_inv h
  obtain ⟨hpassing, rfl⟩ := passing_of_leaves ⟨#[], notes, hl⟩
  have hpassing' : grammar.Passing { options with optimize := hint } := { hpassing with }
  obtain ⟨between, hb, hd⟩ := exists_assemble hpassing.checked.removeProxies.resolved
  obtain ⟨between', hb', hruns⟩ := exists_assemble_runsAs (hs.removeProxies _) hb hint
  obtain ⟨other, hother, hd'⟩ := exists_assemble hpassing'.checked.transformed.resolved
  refine ⟨other, compiles_of_yields ho hpassing'.yields_runPasses hother,
    fun host memory input how => ?_⟩
  calc other.parse host memory input how
      = between'.parse host memory input how :=
        (mirrors_simplify { options with optimize := hint } _ _).parse_eq (denotes_of_assemble hb')
          hd' host memory input how
    _ = between.parse host memory input how := hruns.parse_eq host memory input how
    _ = program.parse host memory input how :=
        ((mirrors_simplify options _ _).parse_eq hd (denotes_of_assemble hprogram) host memory
          input how).symm

/-- A choice in a choice, and a class whose parts overlap and are in no order. -/
def overlappingGrammar : Grammar where
  initializer := none
  rules := [⟨"start", .choice .none [
    .choice .none [.charClass .none ⟨[.range '5' '9', .single '7', .range '0' '6'], false, false⟩,
      .literal .none ⟨"-", false⟩],
    .charClass .none ⟨[.range 'x' 'z', .range 'a' 'c'], false, true⟩], .none⟩]
  span := .none

theorem optimize_keeps_parses_overlapping : overlappingGrammar.Searchable ∧
    ∃ fast small : Program, overlappingGrammar.Compiles .standard {} fast ∧
      overlappingGrammar.Compiles .standard { optimize := .size } small ∧
      ∀ {σ α ε : Type} (host : Host σ α ε) (memory : σ) (input : String) (how : ParseOptions),
        small.parse host memory input how = fast.parse host memory input how := by
  have hs : overlappingGrammar.Searchable := by
    have hspelled : ∀ rule ∈ overlappingGrammar.rules, rule.expr.Spelled := by decide
    exact fun rule hm => (hspelled rule hm).searchable
  have hmade : (overlappingGrammar.parser? .standard {}).isSome = true := by decide +kernel
  obtain ⟨fast, hfast⟩ := Option.isSome_iff_exists.mp hmade
  obtain ⟨small, hsmall, hkeeps⟩ := optimize_keeps_parses hs hfast .size
  exact ⟨hs, fast, small, hfast, hsmall, hkeeps⟩

/-- A class whose second range has its ends in the wrong order, as only a tree can. -/
def reversedClass : CharClass := ⟨[.range 'b' 'c', .range 'z' 'a'], false, false⟩

def reversedGrammar : Grammar where
  initializer := none
  rules := [⟨"start", .charClass .none reversedClass, .none⟩]
  span := .none

def reversedParser (matcher : ClassMatcher) : Program where
  rules := #[⟨"start", .charClass matcher 0⟩]
  expectations := #[.charClass reversedClass, .endOfInput]
  endExpectation := 1
  initializer := none
  startRules := [0]
  cached := false
  traced := false

theorem compiles_reversedParser (hint : Optimization) :
    reversedGrammar.Compiles .standard { optimize := hint }
      (reversedParser (.ofClass reversedClass (hint == .speed))) := by
  cases hint <;> rfl

/-- The ranges are in order, and none touches the next one. -/
theorem rangesOf_reversedClass :
    ClassMatcher.rangesOf reversedClass.parts = [('b', 'c'), ('z', 'a')] := by
  unfold ClassMatcher.rangesOf
  rw [List.mergeSort_of_pairwise (by decide)]
  decide

/-- Where the ends of a range are in the wrong order, the hint may decide what matches: the middle
range is the one that holds nothing, and `b` lies behind its end; so halving gives up the first
range, where the table finds it. -/
theorem optimize_changes_parses :
    ¬ ∀ (grammar : Grammar) (fast small : Program) (input : String),
      grammar.Compiles .standard { optimize := .speed } fast →
      grammar.Compiles .standard { optimize := .size } small →
      (small.parse Host.script 0 input {}).outcome =
        (fast.parse Host.script 0 input {}).outcome := by
  intro h
  have hsame := h reversedGrammar _ _ "b" (compiles_reversedParser .speed)
    (compiles_reversedParser .size)
  have houtcome (hint : Optimization) :
      ((reversedParser (.ofClass reversedClass (hint == .speed))).parse Host.script 0 "b"
        {}).outcome.toBool = (hint == .speed) := by
    unfold ClassMatcher.ofClass
    rw [rangesOf_reversedClass]
    cases hint <;> decide +kernel
  have hsmall := houtcome .size
  rw [hsame, houtcome .speed] at hsmall
  cases hsmall

end Grammar
end Peg
