import Mathlib.Data.List.Forall2
import Peg.Compile.Pipeline

/-! What compilation leaves of a grammar. The passes give a grammar again; of its expressions,
assembly makes nodes of the same shape, in which names have become the indices of rules. -/
namespace Peg

inductive Wrapper.Becomes : Wrapper → Operator → Prop where
  | labeled (label : String) : Becomes (.labeled label) (.labeled label)
  | named (name : String) (expectation : ExpectationId) : Becomes (.named name) (.named expectation)
  | action (code : String) : Becomes (.action code) (.action code)
  | text : Becomes .text .text
  | optional : Becomes .optional .optional
  | zeroOrMore : Becomes .zeroOrMore .zeroOrMore
  | oneOrMore : Becomes .oneOrMore .oneOrMore
  | group : Becomes .group .group
  | followedBy : Becomes .followedBy .followedBy
  | notFollowedBy : Becomes .notFollowedBy .notFollowedBy

/-- The node that an expression becomes, whatever the table of expectations. -/
inductive Expr.Becomes (ruleIndex : String → Option RuleId) : Expr → Node → Prop where
  | literal (span : Span) (lit : Literal) (expectation : ExpectationId) :
      Becomes ruleIndex (.literal span lit) (.literal (.ofLiteral lit) expectation)
  | charClass (span : Span) (members : CharClass) (matcher : ClassMatcher)
      (expectation : ExpectationId) :
      Becomes ruleIndex (.charClass span members) (.charClass matcher expectation)
  | any (span : Span) (expectation : ExpectationId) :
      Becomes ruleIndex (.any span) (.any expectation)
  | ruleRef (span : Span) (name : String) (id : RuleId) (hi : ruleIndex name = some id) :
      Becomes ruleIndex (.ruleRef span name) (.ruleRef id)
  | predicate (span : Span) (negated : Bool) (code : String) :
      Becomes ruleIndex (.predicate span negated code) (.predicate negated code)
  | sequence (span : Span) (elements : List Expr) (nodes : List Node)
      (hn : List.Forall₂ (Becomes ruleIndex) elements nodes) :
      Becomes ruleIndex (.sequence span elements) (.sequence nodes)
  | choice (span : Span) (alternatives : List Expr) (nodes : List Node)
      (hn : List.Forall₂ (Becomes ruleIndex) alternatives nodes) :
      Becomes ruleIndex (.choice span alternatives) (.choice nodes)
  | wrapped (span : Span) (wrapper : Wrapper) (operator : Operator) (body : Expr) (node : Node)
      (hw : wrapper.Becomes operator) (hb : Becomes ruleIndex body node) :
      Becomes ruleIndex (.wrapped span wrapper body) (.wrapped operator node)

/-- Induction on what an expression becomes, with the statement at hand for all members of a
sequence or a choice and the nodes that they become. -/
@[elab_as_elim]
theorem Expr.Becomes.induct {ruleIndex : String → Option RuleId}
    {P : ∀ e node, Expr.Becomes ruleIndex e node → Prop}
    (literal : ∀ span lit expectation, P _ _ (.literal span lit expectation))
    (charClass : ∀ span members matcher expectation,
      P _ _ (.charClass span members matcher expectation))
    (any : ∀ span expectation, P _ _ (.any span expectation))
    (ruleRef : ∀ span name id hi, P _ _ (.ruleRef span name id hi))
    (predicate : ∀ span negated code, P _ _ (.predicate span negated code))
    (sequence : ∀ span elements nodes hn,
      List.Forall₂ (fun e node => ∃ hb, P e node hb) elements nodes →
        P _ _ (.sequence span elements nodes hn))
    (choice : ∀ span alternatives nodes hn,
      List.Forall₂ (fun e node => ∃ hb, P e node hb) alternatives nodes →
        P _ _ (.choice span alternatives nodes hn))
    (wrapped : ∀ span wrapper operator body node hw hb, P body node hb →
      P _ _ (.wrapped span wrapper operator body node hw hb))
    {e : Expr} {node : Node} (h : e.Becomes ruleIndex node) : P e node h :=
  @Becomes.rec ruleIndex P
    (fun es nodes _ => List.Forall₂ (fun e node => ∃ hb, P e node hb) es nodes) literal charClass
    any ruleRef predicate sequence choice wrapped .nil (fun hb _ hp hps => .cons ⟨hb, hp⟩ hps) e
    node h

theorem exists_of_forall₂ {α β : Type} {R : α → β → Prop} {as : List α} {bs : List β}
    (h : List.Forall₂ R as bs) {b : β} (hb : b ∈ bs) : ∃ a ∈ as, R a b := by
  induction h with
  | nil => cases hb
  | cons hr _ ih =>
    rcases List.mem_cons.mp hb with rfl | hb
    · exact ⟨_, List.mem_cons_self, hr⟩
    · obtain ⟨a, ha, hr⟩ := ih hb
      exact ⟨a, List.mem_cons_of_mem _ ha, hr⟩

/-- What comes through has come through in both of its parts. -/
theorem bind_eq_ok {ε α β : Type} {x : Except ε α} {f : α → Except ε β} {b : β}
    (h : (x >>= f) = .ok b) : ∃ a, x = .ok a ∧ f a = .ok b := by
  cases x with
  | error e => cases h
  | ok a => exact ⟨a, rfl, h⟩

theorem map_eq_ok {ε α β : Type} {x : Except ε α} {f : α → β} {b : β} (h : x.map f = .ok b) :
    ∃ a, x = .ok a ∧ f a = b := by
  cases x with
  | error e => cases h
  | ok a => exact ⟨a, rfl, Except.ok.inj h⟩

theorem map_eq_error {ε α β : Type} {x : Except ε α} {f : α → β} {e : ε}
    (h : x.map f = .error e) : x = .error e := by
  cases x with
  | error e' => exact congrArg Except.error (Except.error.inj h)
  | ok a => cases h

theorem mapM_eq_ok_iff {ε α β : Type} {f : α → Except ε β} {as : List α} {bs : List β} :
    as.mapM f = .ok bs ↔ List.Forall₂ (fun a b => f a = .ok b) as bs := by
  induction as generalizing bs with
  | nil =>
    rw [List.mapM_nil, List.forall₂_nil_left_iff]
    constructor
    · intro h
      cases h
      rfl
    · rintro rfl
      rfl
  | cons a as ih =>
    rw [List.mapM_cons]
    constructor
    · intro h
      obtain ⟨b, hb, h⟩ := bind_eq_ok h
      obtain ⟨rest, hr, h⟩ := bind_eq_ok h
      cases h
      exact .cons hb (ih.mp hr)
    · intro h
      cases h with
      | cons hb hr =>
        rw [hb, ih.mpr hr]
        rfl

namespace Assembler

variable {α β : Type} {table table' : List Expectation}

theorem bind_inv {x : Assembler α} {f : α → Assembler β} {b : β}
    (h : (x >>= f) table = .ok (b, table')) :
    ∃ a middle, x table = .ok (a, middle) ∧ f a middle = .ok (b, table') := by
  obtain ⟨⟨a, middle⟩, hx, hf⟩ := bind_eq_ok (x := x table) h
  exact ⟨a, middle, hx, hf⟩

theorem pure_inv {a b : α} (h : (pure a : Assembler α) table = .ok (b, table')) : b = a := by
  cases h
  rfl

theorem mapM_inv {f : α → Assembler β} {as : List α} {bs : List β}
    (h : as.mapM f table = .ok (bs, table')) :
    List.Forall₂ (fun a b => ∃ before after, f a before = .ok (b, after)) as bs := by
  induction as generalizing bs table table' with
  | nil =>
    cases pure_inv h
    exact .nil
  | cons a as ih =>
    rw [List.mapM_cons] at h
    obtain ⟨b, middle, hb, h⟩ := bind_inv h
    obtain ⟨rest, last, hr, h⟩ := bind_inv h
    cases pure_inv h
    exact .cons ⟨table, middle, hb⟩ (ih hr)

end Assembler

namespace Wrapper

theorem becomes_of_assemble {wrapper : Wrapper} {operator : Operator}
    {table table' : List Expectation} (h : wrapper.assemble table = .ok (operator, table')) :
    wrapper.Becomes operator := by
  cases wrapper with
  | named name =>
    obtain ⟨expectation, middle, -, h⟩ := Assembler.bind_inv h
    cases Assembler.pure_inv h
    exact .named name expectation
  | labeled label => cases Assembler.pure_inv h; exact .labeled label
  | action code => cases Assembler.pure_inv h; exact .action code
  | text => cases Assembler.pure_inv h; exact .text
  | optional => cases Assembler.pure_inv h; exact .optional
  | zeroOrMore => cases Assembler.pure_inv h; exact .zeroOrMore
  | oneOrMore => cases Assembler.pure_inv h; exact .oneOrMore
  | group => cases Assembler.pure_inv h; exact .group
  | followedBy => cases Assembler.pure_inv h; exact .followedBy
  | notFollowedBy => cases Assembler.pure_inv h; exact .notFollowedBy

end Wrapper

namespace Expr

variable {ruleIndex : String → Option RuleId} {forSpeed : Bool} {table table' : List Expectation}

theorem becomes_of_assembleAll {es : List Expr} {nodes : List Node}
    (he : ∀ e ∈ es, ∀ (node : Node) (table table' : List Expectation),
      e.assemble ruleIndex forSpeed table = .ok (node, table') → e.Becomes ruleIndex node)
    (h : assembleAll ruleIndex forSpeed es table = .ok (nodes, table')) :
    List.Forall₂ (Becomes ruleIndex) es nodes := by
  induction es generalizing nodes table table' with
  | nil =>
    rw [assembleAll] at h
    cases Assembler.pure_inv h
    exact .nil
  | cons e es ih =>
    rw [assembleAll] at h
    obtain ⟨node, middle, hn, h⟩ := Assembler.bind_inv h
    obtain ⟨rest, last, hr, h⟩ := Assembler.bind_inv h
    cases Assembler.pure_inv h
    exact .cons (he e List.mem_cons_self node table middle hn)
      (ih (fun e hm => he e (List.mem_cons_of_mem _ hm)) hr)

/-- Assembly keeps the shape of an expression. -/
theorem becomes_of_assemble {e : Expr} {node : Node}
    (h : e.assemble ruleIndex forSpeed table = .ok (node, table')) : e.Becomes ruleIndex node := by
  induction e using Expr.induct generalizing node table table' with
  | literal span lit =>
    rw [assemble] at h
    obtain ⟨expectation, middle, -, h⟩ := Assembler.bind_inv h
    cases Assembler.pure_inv h
    exact .literal span lit expectation
  | charClass span members =>
    rw [assemble] at h
    obtain ⟨expectation, middle, -, h⟩ := Assembler.bind_inv h
    cases Assembler.pure_inv h
    exact .charClass span members _ expectation
  | any span =>
    rw [assemble] at h
    obtain ⟨expectation, middle, -, h⟩ := Assembler.bind_inv h
    cases Assembler.pure_inv h
    exact .any span expectation
  | ruleRef span name =>
    rw [assemble] at h
    cases hi : ruleIndex name with
    | none => rw [hi] at h; cases h
    | some id =>
      rw [hi] at h
      cases Assembler.pure_inv h
      exact .ruleRef span name id hi
  | predicate span negated code =>
    rw [assemble] at h
    cases Assembler.pure_inv h
    exact .predicate span negated code
  | sequence span elements ih =>
    rw [assemble] at h
    obtain ⟨nodes, middle, hn, h⟩ := Assembler.bind_inv h
    cases Assembler.pure_inv h
    exact .sequence span elements nodes
      (becomes_of_assembleAll (fun e hm _ _ _ he => ih e hm he) hn)
  | choice span alternatives ih =>
    rw [assemble] at h
    obtain ⟨nodes, middle, hn, h⟩ := Assembler.bind_inv h
    cases Assembler.pure_inv h
    exact .choice span alternatives nodes
      (becomes_of_assembleAll (fun e hm _ _ _ he => ih e hm he) hn)
  | wrapped span wrapper body ih =>
    rw [assemble] at h
    obtain ⟨operator, middle, hw, h⟩ := Assembler.bind_inv h
    obtain ⟨node, last, hb, h⟩ := Assembler.bind_inv h
    cases Assembler.pure_inv h
    exact .wrapped span wrapper operator body node (Wrapper.becomes_of_assemble hw) (ih hb)

end Expr

namespace Grammar

/-- The program is the grammar with names resolved. -/
structure Becomes (grammar : Grammar) (options : Options) (program : Program) : Prop where
  rules : List.Forall₂ (fun rule found => found.name = rule.name ∧
    rule.expr.Becomes grammar.ruleIndex? found.node) grammar.rules program.rules.toList
  startRules : ∀ id ∈ program.startRules, ∃ name, grammar.ruleIndex? name = some id
  initializer : program.initializer = grammar.initializer.map (·.code)
  cached : program.cached = options.cache
  traced : program.traced = options.trace

theorem becomes_of_assemble {grammar : Grammar} {options : Options} {program : Program}
    (h : grammar.assemble options = .ok program) : grammar.Becomes options program := by
  obtain ⟨⟨rules, table⟩, hr, h⟩ := bind_eq_ok h
  obtain ⟨startRules, hs, h⟩ := bind_eq_ok h
  obtain ⟨⟨endExpectation, last⟩, -, h⟩ := bind_eq_ok h
  cases h
  refine ⟨?_, fun id hm => ?_, rfl, rfl, rfl⟩
  · refine (Assembler.mapM_inv hr).imp fun rule found hf => ?_
    obtain ⟨before, after, hf⟩ := hf
    obtain ⟨node, middle, hn, hf⟩ := Assembler.bind_inv hf
    cases Assembler.pure_inv hf
    exact ⟨rfl, Expr.becomes_of_assemble hn⟩
  · unfold assembleStartRules at hs
    obtain ⟨ids, hi, hs⟩ := bind_eq_ok hs
    have he : startRules = ids := by
      split at hs
      · cases hs
      · cases hs
        rfl
    rw [he] at hm
    obtain ⟨name, -, hn⟩ := exists_of_forall₂ (mapM_eq_ok_iff.mp hi) hm
    refine ⟨name, ?_⟩
    split at hn
    · cases hn
      assumption
    · cases hn

/-- What a name is resolved to is a rule of that name. -/
theorem Becomes.exists_rule {grammar : Grammar} {options : Options} {program : Program}
    (h : grammar.Becomes options program) {name : String} {id : RuleId}
    (hi : grammar.ruleIndex? name = some id) :
    ∃ found, program.rules[id]? = some found ∧ found.name = name := by
  obtain ⟨hlt, hname, -⟩ := List.findIdx?_eq_some_iff_getElem.mp hi
  rw [beq_iff_eq] at hname
  have hl := h.rules.length_eq
  rw [Array.length_toList] at hl
  have hr := (h.rules.get hlt (by rw [Array.length_toList]; exact hl ▸ hlt)).1
  exact ⟨program.rules[id], Array.getElem?_eq_getElem (hl ▸ hlt), hr.trans hname⟩

/-- The rule of the grammar that has become a rule of the program. -/
theorem Becomes.exists_source {grammar : Grammar} {options : Options} {program : Program}
    (h : grammar.Becomes options program) {id : RuleId} {found : CompiledRule}
    (hr : program.rules[id]? = some found) :
    ∃ rule, grammar.rules[id]? = some rule ∧ found.name = rule.name ∧
      rule.expr.Becomes grammar.ruleIndex? found.node := by
  obtain ⟨hlt, hget⟩ := Array.getElem?_eq_some_iff.mp hr
  have hlen : id < grammar.rules.length := by
    rw [h.rules.length_eq, Array.length_toList]
    exact hlt
  have hrule := h.rules.get hlen (by rwa [Array.length_toList])
  have hsame : program.rules.toList.get ⟨id, by rwa [Array.length_toList]⟩ = found := hget
  rw [hsame] at hrule
  exact ⟨grammar.rules[id], List.getElem?_eq_getElem hlen, hrule⟩

end Grammar

/-- What the pass makes of a grammar: the grammar that it leaves, or the error with which it refuses
the one that it was given. -/
def Pass.outcome (pass : Pass) (options : Options) (grammar : Grammar) :
    Except GrammarError Grammar :=
  ((pass.run options grammar).run.run #[]).1

namespace Compiler

variable {α β : Type} {notes notes' : Array Note}

theorem bind_inv {x : Compiler α} {f : α → Compiler β} {b : β}
    (h : (x >>= f).run.run notes = (.ok b, notes')) :
    ∃ a middle, x.run.run notes = (.ok a, middle) ∧ (f a).run.run middle = (.ok b, notes') := by
  rcases hx : x.run.run notes with ⟨o, middle⟩
  rw [ExceptT.run_bind, StateT.run_bind, hx] at h
  cases o with
  | error e => cases h
  | ok a => exact ⟨a, middle, rfl, h⟩

theorem pure_inv {a b : α} (h : (pure a : Compiler α).run.run notes = (.ok b, notes')) : b = a := by
  cases h
  rfl

/-- A check gives the error that it has found. -/
theorem outcome_refuse (found : Option GrammarError) (a : α) (notes : Array Note) :
    ((do refuse found; return a : Compiler α).run.run notes).1 = found.elim (.ok a) .error := by
  cases found <;> rfl

/-- A check that comes through has found nothing. -/
theorem refuse_inv {found : Option GrammarError} {a b : α}
    (h : (do refuse found; return a : Compiler α).run.run notes = (.ok b, notes')) :
    found = none ∧ b = a := by
  obtain ⟨⟨⟩, middle, hf, h⟩ := bind_inv h
  cases found with
  | some e => cases hf
  | none => exact ⟨rfl, pure_inv h⟩

end Compiler

namespace Grammar

def parser? (grammar : Grammar) (passes : Passes) (options : Options) : Option Program :=
  ((grammar.compile passes options).run.run #[]).1.toOption.bind Artifact.parser?

/-- The program is the parser that the passes and options make of the grammar. -/
def Compiles (grammar : Grammar) (passes : Passes) (options : Options) (program : Program) : Prop :=
  grammar.parser? passes options = some program

theorem eq_parser_of_toOption {ε : Type} {made : Except ε Artifact} {program : Program}
    (h : made.toOption.bind Artifact.parser? = some program) : made = .ok (.parser program) := by
  cases made with
  | error e => cases h
  | ok artifact =>
    cases artifact with
    | parser found => cases h; rfl
    | source source => cases h

theorem run_of_compiles {grammar : Grammar} {passes : Passes} {options : Options}
    {program : Program} (h : grammar.Compiles passes options program) :
    ((grammar.compile passes options).run.run #[]).1 = .ok (.parser program) :=
  eq_parser_of_toOption h

/-- Two rules: `start = &word "c" / word "d"` and `word = "a" "b"`. Behind the lookahead, `word` is
entered where it has been looked for already. -/
def peekGrammar : Grammar where
  initializer := none
  rules := [
    ⟨"start", .choice .none [
      .sequence .none [.wrapped .none .followedBy (.ruleRef .none "word"),
        .literal .none ⟨"c", false⟩],
      .sequence .none [.ruleRef .none "word", .literal .none ⟨"d", false⟩]], .none⟩,
    ⟨"word", .sequence .none [.literal .none ⟨"a", false⟩, .literal .none ⟨"b", false⟩], .none⟩]
  span := .none

/-- The parser of the two rules, with and without keeping results. -/
def peekParser (cache : Bool) : Program :=
  (peekGrammar.parser? .standard { cache := cache }).get (by cases cache <;> decide +kernel)

theorem compiles_peekParser (cache : Bool) :
    peekGrammar.Compiles .standard { cache := cache } (peekParser cache) :=
  (Option.some_get _).symm

def Leaves (grammar : Grammar) (passes : List Pass) (options : Options) (left : Grammar) : Prop :=
  ∃ notes notes', (grammar.runPasses options passes).run.run notes = (.ok left, notes')

theorem leaves_nil {grammar left : Grammar} {options : Options}
    (h : grammar.Leaves [] options left) : left = grammar := by
  obtain ⟨notes, notes', h⟩ := h
  exact Compiler.pure_inv h

theorem leaves_cons {grammar left : Grammar} {pass : Pass} {passes : List Pass} {options : Options}
    (h : grammar.Leaves (pass :: passes) options left) :
    ∃ notes notes' middle, (pass.run options grammar).run.run notes = (.ok middle, notes') ∧
      middle.Leaves passes options left := by
  obtain ⟨notes, notes', h⟩ := h
  obtain ⟨-, n₁, -, h⟩ := Compiler.bind_inv h
  obtain ⟨middle, n₂, hp, h⟩ := Compiler.bind_inv h
  exact ⟨n₁, n₂, middle, hp, n₂, notes', h⟩

/-- An artifact is a parser, which is assembled, if parsers are asked for. -/
theorem finish_inv {left : Grammar} {options : Options} {artifact : Artifact}
    {notes notes' : Array Note}
    (h : (left.finish options).run.run notes = (.ok artifact, notes')) :
    (options.output = .parser ∧ ∃ program, artifact = .parser program ∧
      left.assemble options = .ok program) ∨
    (options.output = .source ∧ ∃ source, artifact = .source source) := by
  unfold finish at h
  split at h
  · rename_i ho
    obtain ⟨found, m₁, ha, h⟩ := Compiler.bind_inv h
    obtain ⟨-, m₂, -, h⟩ := Compiler.bind_inv h
    refine Or.inl ⟨ho, found, Compiler.pure_inv h, ?_⟩
    cases hm : left.assemble options with
    | error e => rw [hm] at ha; cases ha
    | ok made => rw [hm] at ha; cases ha; rfl
  · rename_i ho
    obtain ⟨source, m₁, -, h⟩ := Compiler.bind_inv h
    exact Or.inr ⟨ho, _, Compiler.pure_inv h⟩

/-- A parser is assembled from what the passes leave. -/
theorem compiles_inv {grammar : Grammar} {passes : Passes} {options : Options} {program : Program}
    (h : grammar.Compiles passes options program) :
    ∃ left notes, (grammar.runPasses options passes.all).run.run #[] = (.ok left, notes) ∧
      left.assemble options = .ok program := by
  obtain ⟨left, notes, hl, h⟩ := Compiler.bind_inv (Prod.ext (run_of_compiles h) rfl)
  refine ⟨left, notes, hl, ?_⟩
  obtain ⟨-, found, hfound, ha⟩ | ⟨-, source, hsource⟩ := finish_inv h
  · cases hfound
    exact ha
  · cases hsource

theorem output_of_compiles {grammar : Grammar} {passes : Passes} {options : Options}
    {program : Program} (h : grammar.Compiles passes options program) :
    options.output = .parser := by
  obtain ⟨left, notes, -, hf⟩ := Compiler.bind_inv (Prod.ext (run_of_compiles h) rfl)
  obtain ⟨ho, -⟩ | ⟨-, source, hsource⟩ := finish_inv hf
  · exact ho
  · cases hsource

theorem becomes_of_compiles {grammar : Grammar} {passes : Passes} {options : Options}
    {program : Program} (h : grammar.Compiles passes options program) :
    ∃ left, grammar.Leaves passes.all options left ∧ left.Becomes options program := by
  obtain ⟨left, notes, hl, ha⟩ := compiles_inv h
  exact ⟨left, ⟨#[], notes, hl⟩, becomes_of_assemble ha⟩

/-- No check of the grammar finds anything. -/
structure Passing (grammar : Grammar) (options : Options) : Prop where
  duplicateRules : grammar.duplicateRule? = none
  undefinedRules : grammar.undefinedRule? = none
  startRules : grammar.badStartRule? (options.startRules grammar.firstRule?) = none
  duplicateLabels : grammar.duplicateLabel? = none
  leftRecursion : grammar.leftRecursion? = none
  emptyRepetition : grammar.emptyRepetition? = none

/-- What the standard passes make of a grammar that passes the checks. -/
def transformed (grammar : Grammar) (options : Options) : Grammar :=
  (grammar.removeProxies (options.startRules grammar.firstRule?)).1.simplify
    (options.optimize == .speed)

/-- Passes run on what the ones before them leave. -/
theorem runPasses_append (options : Options) (passes passes' : List Pass) (grammar : Grammar) :
    grammar.runPasses options (passes ++ passes') =
      grammar.runPasses options passes >>= runPasses options passes' := by
  induction passes generalizing grammar with
  | nil => rw [List.nil_append, runPasses, pure_bind]
  | cons pass passes ih => simp only [List.cons_append, runPasses, ih, bind_assoc]

theorem leaves_append {grammar left : Grammar} {passes passes' : List Pass} {options : Options}
    (h : grammar.Leaves (passes ++ passes') options left) :
    ∃ middle, grammar.Leaves passes options middle ∧ middle.Leaves passes' options left := by
  obtain ⟨notes, notes', h⟩ := h
  rw [runPasses_append] at h
  obtain ⟨middle, notes'', hm, hl⟩ := Compiler.bind_inv h
  exact ⟨middle, ⟨notes, notes'', hm⟩, notes'', notes', hl⟩

/-- The checks come through only if they find nothing, and change nothing. -/
theorem passing_of_checks {grammar left : Grammar} {options : Options}
    (h : grammar.Leaves Passes.standard.checks options left) :
    grammar.Passing options ∧ left = grammar := by
  obtain ⟨n₁, n₁', g₁, h₁, h⟩ := leaves_cons h
  obtain ⟨n₂, n₂', g₂, h₂, h⟩ := leaves_cons h
  obtain ⟨n₃, n₃', g₃, h₃, h⟩ := leaves_cons h
  obtain ⟨n₄, n₄', g₄, h₄, h⟩ := leaves_cons h
  obtain ⟨n₅, n₅', g₅, h₅, h⟩ := leaves_cons h
  obtain ⟨n₆, n₆', g₆, h₆, hlast⟩ := leaves_cons h
  obtain ⟨hrules, rfl⟩ := Compiler.refuse_inv h₁
  obtain ⟨hundefined, rfl⟩ := Compiler.refuse_inv h₂
  obtain ⟨hstart, rfl⟩ := Compiler.refuse_inv h₃
  obtain ⟨hlabels, rfl⟩ := Compiler.refuse_inv h₄
  obtain ⟨hrecursion, rfl⟩ := Compiler.refuse_inv h₅
  obtain ⟨hrepetition, rfl⟩ := Compiler.refuse_inv h₆
  exact ⟨⟨hrules, hundefined, hstart, hlabels, hrecursion, hrepetition⟩, leaves_nil hlast⟩

/-- The standard passes come through only if the checks find nothing. -/
theorem passing_of_leaves {grammar left : Grammar} {options : Options}
    (h : grammar.Leaves Passes.standard.all options left) :
    grammar.Passing options ∧ left = grammar.transformed options := by
  obtain ⟨middle, hchecks, htransforms⟩ := leaves_append h
  obtain ⟨hpassing, rfl⟩ := passing_of_checks hchecks
  obtain ⟨n₇, n₇', g₇, h₇, htransforms⟩ := leaves_cons htransforms
  obtain ⟨n₈, n₈', g₈, h₈, hlast⟩ := leaves_cons htransforms
  obtain ⟨-, n, -, h₇⟩ := Compiler.bind_inv h₇
  refine ⟨hpassing, ?_⟩
  cases Compiler.pure_inv h₇
  cases Compiler.pure_inv h₈
  exact leaves_nil hlast

/-- Resolving proxies is redirecting references to rules that are proxies then. -/
theorem resolveProxies_preserves {P : Grammar → Prop} (names : List String)
    (hredirect : ∀ (grammar : Grammar) (index : Nat) (rule : Rule) (target : String),
      grammar.rules[index]? = some rule → rule.proxyTarget? = some target → P grammar →
      P (grammar.redirect rule.name target))
    (indices : List Nat) {grammar : Grammar} (hp : P grammar) :
    P (grammar.resolveProxies names indices).1 := by
  induction indices generalizing grammar with
  | nil => exact hp
  | cons index indices ih =>
    refine ih ?_
    unfold resolveProxy
    split
    · exact hp
    · rename_i rule hr
      split
      · exact hp
      · rename_i target ht
        exact hredirect grammar index rule target hr ht hp

section Removal

variable {grammar resolved : Grammar} {names : List String} {removable : List Nat}

theorem removeProxies_eq
    (h : grammar.resolveProxies names (List.range grammar.rules.length) = (resolved, removable)) :
    (grammar.removeProxies names).1 = { resolved with
      rules :=
        (resolved.rules.zipIdx.filter fun entry => !removable.contains entry.2).map (·.1) } := by
  unfold removeProxies
  rw [h]
  dsimp only
  rw [List.partition_eq_filter_filter]
  rfl

/-- The rules that stay are in the order in which they were. -/
theorem sublist_removeProxies
    (h : grammar.resolveProxies names (List.range grammar.rules.length) = (resolved, removable)) :
    (grammar.removeProxies names).1.rules.Sublist resolved.rules := by
  rw [removeProxies_eq h]
  have hs := (List.filter_sublist (l := resolved.rules.zipIdx)
    (p := fun entry => !removable.contains entry.2)).map Prod.fst
  rwa [List.zipIdx_map_fst] at hs

end Removal

/-- Removing proxies is redirecting references and dropping rules. -/
theorem removeProxies_preserves {P : Grammar → Prop} (names : List String)
    (hredirect : ∀ (grammar : Grammar) (index : Nat) (rule : Rule) (target : String),
      grammar.rules[index]? = some rule → rule.proxyTarget? = some target → P grammar →
      P (grammar.redirect rule.name target))
    (hdrop : ∀ (grammar : Grammar) (rules : List Rule), rules.Sublist grammar.rules → P grammar →
      P { grammar with rules := rules })
    {grammar : Grammar} (hp : P grammar) : P (grammar.removeProxies names).1 := by
  have hp' := resolveProxies_preserves names hredirect (List.range grammar.rules.length) hp
  rcases hr : grammar.resolveProxies names (List.range grammar.rules.length) with
    ⟨resolved, removable⟩
  rw [hr] at hp'
  have hs := sublist_removeProxies hr
  rw [removeProxies_eq hr] at hs ⊢
  exact hdrop resolved _ hs hp'

/-- What transformations keep is kept by all passes, as checks change nothing. -/
theorem leaves_preserves {P : Grammar → Prop} {options : Options} {passes : List Pass}
    {grammar left : Grammar} (h : grammar.Leaves passes options left) (hp : P grammar)
    (hproxies : ∀ (grammar : Grammar) (names : List String), P grammar →
      P (grammar.removeProxies names).1)
    (hsimplify : ∀ (grammar : Grammar) (flattenChoices : Bool), P grammar →
      P (grammar.simplify flattenChoices)) : P left := by
  induction passes generalizing grammar with
  | nil => exact leaves_nil h ▸ hp
  | cons pass passes ih =>
    obtain ⟨notes, notes', middle, hm, hl⟩ := leaves_cons h
    refine ih hl ?_
    cases pass with
    | removeProxies =>
      obtain ⟨-, n, -, hm⟩ := Compiler.bind_inv hm
      cases Compiler.pure_inv hm
      exact hproxies grammar _ hp
    | simplify =>
      cases Compiler.pure_inv hm
      exact hsimplify grammar _ hp
    | duplicateRules | undefinedRules | startRules | duplicateLabels | leftRecursion
    | emptyRepetition | forbid =>
      obtain ⟨-, n, -, hm⟩ := Compiler.bind_inv hm
      cases Compiler.pure_inv hm
      exact hp

/-- Passes ask neither whether results are to be kept nor whether rules are to be traced. -/
theorem runPasses_flags (options : Options) (cache trace : Bool) (passes : List Pass)
    (grammar : Grammar) :
    grammar.runPasses { options with cache := cache, trace := trace } passes =
      grammar.runPasses options passes := by
  induction passes generalizing grammar with
  | nil => rfl
  | cons pass passes ih =>
    have hp : pass.run { options with cache := cache, trace := trace } = pass.run options := by
      cases pass <;> rfl
    rw [runPasses, runPasses, hp]
    simp only [ih]

theorem assemble_flags {grammar : Grammar} {options : Options} {program : Program}
    (h : grammar.assemble options = .ok program) (cache trace : Bool) :
    grammar.assemble { options with cache := cache, trace := trace } =
      .ok { program with cached := cache, traced := trace } := by
  obtain ⟨⟨rules, table⟩, hr, h⟩ := bind_eq_ok h
  obtain ⟨startRules, hs, h⟩ := bind_eq_ok h
  obtain ⟨⟨endExpectation, last⟩, he, h⟩ := bind_eq_ok h
  cases h
  change ((grammar.assembleRules (options.optimize == .speed)).run [] >>= fun p =>
    grammar.assembleStartRules (options.startRules grammar.firstRule?) >>= _) = _
  rw [hr]
  change (grammar.assembleStartRules (options.startRules grammar.firstRule?) >>= _) = _
  rw [hs]
  change ((intern .endOfInput).run table >>= _) = _
  rw [he]
  rfl

/-- With and without keeping results, the programs of a grammar differ in nothing else. -/
theorem compiles_cache {grammar : Grammar} {passes : Passes} {options : Options} {off on : Program}
    (hoff : grammar.Compiles passes { options with cache := false } off)
    (hon : grammar.Compiles passes { options with cache := true } on) :
    off.cached = false ∧ on = { off with cached := true } := by
  obtain ⟨left, notes, hl, ha⟩ := compiles_inv hoff
  obtain ⟨left', notes', hl', ha'⟩ := compiles_inv hon
  rw [runPasses_flags] at hl hl'
  cases hl.symm.trans hl'
  have hb := becomes_of_assemble ha
  have hcached := Except.ok.inj (ha'.symm.trans (assemble_flags ha true options.trace))
  rw [← hb.traced] at hcached
  exact ⟨hb.cached, hcached⟩

end Grammar
end Peg
