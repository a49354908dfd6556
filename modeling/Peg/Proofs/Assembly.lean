import Peg.Proofs.Compilation
import Peg.Proofs.Subterms

/-! What assembly makes of a grammar, with the table of expectations in view. It comes through if
all names are declared; then every node is the one that its expression denotes, and every number of
an expectation stands for the terminal or the display name that it was made for. -/
namespace Peg

/-- The operator that a wrapper denotes, if numbers stand for these expectations. -/
inductive Wrapper.Denotes (expectations : Array Expectation) : Wrapper → Operator → Prop where
  | named (name : String) (id : ExpectationId) (hi : expectations[id]? = some (.other name)) :
      Denotes expectations (.named name) (.named id)
  | plain (wrapper : Wrapper) (operator : Operator) (hn : ∀ name, wrapper ≠ .named name)
      (hb : wrapper.Becomes operator) : Denotes expectations wrapper operator

/-- The node that an expression denotes, if numbers stand for these expectations. -/
inductive Expr.Denotes (ruleIndex : String → Option RuleId) (forSpeed : Bool)
    (expectations : Array Expectation) : Expr → Node → Prop where
  | literal (span : Span) (lit : Literal) (id : ExpectationId)
      (hi : expectations[id]? = some (.literal lit)) :
      Denotes ruleIndex forSpeed expectations (.literal span lit) (.literal (.ofLiteral lit) id)
  | charClass (span : Span) (members : CharClass) (id : ExpectationId)
      (hi : expectations[id]? = some (.charClass members)) :
      Denotes ruleIndex forSpeed expectations (.charClass span members)
        (.charClass (.ofClass members forSpeed) id)
  | any (span : Span) (id : ExpectationId) (hi : expectations[id]? = some .any) :
      Denotes ruleIndex forSpeed expectations (.any span) (.any id)
  | ruleRef (span : Span) (name : String) (id : RuleId) (hi : ruleIndex name = some id) :
      Denotes ruleIndex forSpeed expectations (.ruleRef span name) (.ruleRef id)
  | predicate (span : Span) (negated : Bool) (code : String) :
      Denotes ruleIndex forSpeed expectations (.predicate span negated code)
        (.predicate negated code)
  | sequence (span : Span) (elements : List Expr) (nodes : List Node)
      (hn : List.Forall₂ (Denotes ruleIndex forSpeed expectations) elements nodes) :
      Denotes ruleIndex forSpeed expectations (.sequence span elements) (.sequence nodes)
  | choice (span : Span) (alternatives : List Expr) (nodes : List Node)
      (hn : List.Forall₂ (Denotes ruleIndex forSpeed expectations) alternatives nodes) :
      Denotes ruleIndex forSpeed expectations (.choice span alternatives) (.choice nodes)
  | wrapped (span : Span) (wrapper : Wrapper) (operator : Operator) (body : Expr) (node : Node)
      (hw : wrapper.Denotes expectations operator)
      (hb : Denotes ruleIndex forSpeed expectations body node) :
      Denotes ruleIndex forSpeed expectations (.wrapped span wrapper body) (.wrapped operator node)

/-- Induction on what an expression denotes, with the statement at hand for all members of a
sequence or a choice and the nodes that they denote. -/
@[elab_as_elim]
theorem Expr.Denotes.induct {ruleIndex : String → Option RuleId} {forSpeed : Bool}
    {expectations : Array Expectation}
    {P : ∀ e node, Expr.Denotes ruleIndex forSpeed expectations e node → Prop}
    (literal : ∀ span lit id hi, P _ _ (.literal span lit id hi))
    (charClass : ∀ span members id hi, P _ _ (.charClass span members id hi))
    (any : ∀ span id hi, P _ _ (.any span id hi))
    (ruleRef : ∀ span name id hi, P _ _ (.ruleRef span name id hi))
    (predicate : ∀ span negated code, P _ _ (.predicate span negated code))
    (sequence : ∀ span elements nodes hn,
      List.Forall₂ (fun e node => ∃ hd, P e node hd) elements nodes →
        P _ _ (.sequence span elements nodes hn))
    (choice : ∀ span alternatives nodes hn,
      List.Forall₂ (fun e node => ∃ hd, P e node hd) alternatives nodes →
        P _ _ (.choice span alternatives nodes hn))
    (wrapped : ∀ span wrapper operator body node hw hb, P body node hb →
      P _ _ (.wrapped span wrapper operator body node hw hb))
    {e : Expr} {node : Node} (h : e.Denotes ruleIndex forSpeed expectations node) : P e node h :=
  @Denotes.rec ruleIndex forSpeed expectations P
    (fun es nodes _ => List.Forall₂ (fun e node => ∃ hd, P e node hd) es nodes) literal charClass
    any ruleRef predicate sequence choice wrapped .nil (fun hd _ hp hps => .cons ⟨hd, hp⟩ hps) e
    node h

namespace Wrapper

/-- But for display names, there is one operator that a wrapper becomes. -/
theorem Becomes.unique {wrapper : Wrapper} {operator operator' : Operator}
    (h : wrapper.Becomes operator) (h' : wrapper.Becomes operator')
    (hn : ∀ name, wrapper ≠ .named name) : operator = operator' := by
  cases h <;> cases h' <;> first | rfl | exact absurd rfl (hn _)

theorem Denotes.mono {expectations expectations' : Array Expectation}
    (ht : ∀ (id : ExpectationId) (e : Expectation), expectations[id]? = some e →
      expectations'[id]? = some e) {wrapper : Wrapper} {operator : Operator}
    (h : wrapper.Denotes expectations operator) : wrapper.Denotes expectations' operator := by
  cases h with
  | named name id hi => exact .named name id (ht id _ hi)
  | plain wrapper operator hn hb => exact .plain wrapper operator hn hb

theorem Denotes.becomes {expectations : Array Expectation} {wrapper : Wrapper} {operator : Operator}
    (h : wrapper.Denotes expectations operator) : wrapper.Becomes operator := by
  cases h with
  | named name id _ => exact .named name id
  | plain _ _ _ hb => exact hb

end Wrapper

namespace Expr

variable {ruleIndex : String → Option RuleId} {forSpeed : Bool}

/-- A table that only grows goes on to stand for what it stood for. -/
theorem Denotes.mono {expectations expectations' : Array Expectation}
    (ht : ∀ (id : ExpectationId) (e : Expectation), expectations[id]? = some e →
      expectations'[id]? = some e) {e : Expr} {node : Node}
    (h : e.Denotes ruleIndex forSpeed expectations node) :
    e.Denotes ruleIndex forSpeed expectations' node := by
  induction h using Denotes.induct with
  | literal span lit id hi => exact .literal span lit id (ht id _ hi)
  | charClass span members id hi => exact .charClass span members id (ht id _ hi)
  | any span id hi => exact .any span id (ht id _ hi)
  | ruleRef span name id hi => exact .ruleRef span name id hi
  | predicate span negated code => exact .predicate span negated code
  | sequence span elements nodes _ ih =>
    exact .sequence span elements nodes (ih.imp fun _ _ ⟨_, hd⟩ => hd)
  | choice span alternatives nodes _ ih =>
    exact .choice span alternatives nodes (ih.imp fun _ _ ⟨_, hd⟩ => hd)
  | wrapped span wrapper operator body node hw _ ih =>
    exact .wrapped span wrapper operator body node (hw.mono ht) ih

/-- What an expression denotes is what it becomes. -/
theorem Denotes.becomes {expectations : Array Expectation} {e : Expr} {node : Node}
    (h : e.Denotes ruleIndex forSpeed expectations node) : e.Becomes ruleIndex node := by
  induction h using Denotes.induct with
  | literal span lit id _ => exact .literal span lit id
  | charClass span members id _ => exact .charClass span members _ id
  | any span id _ => exact .any span id
  | ruleRef span name id hi => exact .ruleRef span name id hi
  | predicate span negated code => exact .predicate span negated code
  | sequence span elements nodes _ ih =>
    exact .sequence span elements nodes (ih.imp fun _ _ ⟨_, hb⟩ => hb)
  | choice span alternatives nodes _ ih =>
    exact .choice span alternatives nodes (ih.imp fun _ _ ⟨_, hb⟩ => hb)
  | wrapped span wrapper operator body node hw _ ih =>
    exact .wrapped span wrapper operator body node hw.becomes ih

end Expr

/-- What stands in a table stands there when more is added behind it. -/
theorem getElem?_of_isPrefix {table table' : List Expectation} (h : table <+: table')
    (id : ExpectationId) (e : Expectation) (hi : table.toArray[id]? = some e) :
    table'.toArray[id]? = some e := by
  rw [List.getElem?_toArray] at hi ⊢
  obtain ⟨rest, rfl⟩ := h
  obtain ⟨hlt, -⟩ := List.getElem?_eq_some_iff.mp hi
  rw [List.getElem?_append_left hlt, hi]

/-- An expectation always gets a number, and stands in the table under it. -/
theorem exists_intern (e : Expectation) (table : List Expectation) :
    ∃ id table', intern e table = .ok (id, table') ∧ table <+: table' ∧
      table'.toArray[id]? = some e := by
  unfold intern
  cases hi : table.idxOf? e with
  | none =>
    refine ⟨table.length, table ++ [e], rfl, List.prefix_append table [e], ?_⟩
    rw [List.getElem?_toArray, List.getElem?_concat_length]
  | some id =>
    refine ⟨id, table, rfl, List.prefix_refl table, ?_⟩
    obtain ⟨hlt, hget, -⟩ := List.findIdx?_eq_some_iff_getElem.mp hi
    rw [List.getElem?_toArray, List.getElem?_eq_getElem hlt, beq_iff_eq.mp hget]

theorem bind_of_ok {ε α β : Type} {x : Except ε α} {f : α → Except ε β} {a : α} (h : x = .ok a) :
    (x >>= f) = f a := by
  rw [h]
  rfl

/-- What an assembler comes to step by step. -/
theorem Assembler.bind_ok {α β : Type} {x : Assembler α} {f : α → Assembler β} {a : α}
    {table middle : List Expectation} (h : x table = .ok (a, middle)) :
    (x >>= f) table = f a middle :=
  bind_of_ok (x := x table) h

theorem Wrapper.exists_assemble (wrapper : Wrapper) (table : List Expectation) :
    ∃ operator table', wrapper.assemble table = .ok (operator, table') ∧ table <+: table' ∧
      wrapper.Denotes table'.toArray operator := by
  cases wrapper with
  | named name =>
    obtain ⟨id, table', hi, hp, he⟩ := exists_intern (.other name) table
    exact ⟨.named id, table', Assembler.bind_ok hi, hp, .named name id he⟩
  | labeled label =>
    exact ⟨_, _, rfl, List.prefix_refl table, .plain _ _ nofun (.labeled label)⟩
  | action code => exact ⟨_, _, rfl, List.prefix_refl table, .plain _ _ nofun (.action code)⟩
  | text => exact ⟨_, _, rfl, List.prefix_refl table, .plain _ _ nofun .text⟩
  | optional => exact ⟨_, _, rfl, List.prefix_refl table, .plain _ _ nofun .optional⟩
  | zeroOrMore => exact ⟨_, _, rfl, List.prefix_refl table, .plain _ _ nofun .zeroOrMore⟩
  | oneOrMore => exact ⟨_, _, rfl, List.prefix_refl table, .plain _ _ nofun .oneOrMore⟩
  | group => exact ⟨_, _, rfl, List.prefix_refl table, .plain _ _ nofun .group⟩
  | followedBy => exact ⟨_, _, rfl, List.prefix_refl table, .plain _ _ nofun .followedBy⟩
  | notFollowedBy => exact ⟨_, _, rfl, List.prefix_refl table, .plain _ _ nofun .notFollowedBy⟩

namespace Expr

variable {ruleIndex : String → Option RuleId} {forSpeed : Bool}

/-- The expression comes through, and becomes a node that it denotes. -/
def Assembles (ruleIndex : String → Option RuleId) (forSpeed : Bool) (e : Expr) : Prop :=
  ∀ table, ∃ node table', e.assemble ruleIndex forSpeed table = .ok (node, table') ∧
    table <+: table' ∧ e.Denotes ruleIndex forSpeed table'.toArray node

theorem exists_assembleAll {es : List Expr} (he : ∀ e ∈ es, e.Assembles ruleIndex forSpeed)
    (table : List Expectation) :
    ∃ nodes table', assembleAll ruleIndex forSpeed es table = .ok (nodes, table') ∧
      table <+: table' ∧ List.Forall₂ (Denotes ruleIndex forSpeed table'.toArray) es nodes := by
  induction es generalizing table with
  | nil => exact ⟨[], table, by rw [assembleAll]; rfl, List.prefix_refl table, .nil⟩
  | cons e es ih =>
    obtain ⟨node, middle, hn, hp, hd⟩ := he e List.mem_cons_self table
    obtain ⟨nodes, last, hns, hp', hds⟩ := ih (fun e hm => he e (List.mem_cons_of_mem _ hm)) middle
    refine ⟨node :: nodes, last, ?_, hp.trans hp', .cons (hd.mono (getElem?_of_isPrefix hp')) hds⟩
    rw [assembleAll, Assembler.bind_ok hn, Assembler.bind_ok hns]
    rfl

/-- Assembly comes through on an expression that refers to rules only that there are. -/
theorem assembles_of_refs {e : Expr} (h : ∀ name ∈ e.refs, ∃ id, ruleIndex name = some id) :
    e.Assembles ruleIndex forSpeed := by
  induction e using Expr.induct with
  | literal span lit =>
    intro table
    obtain ⟨id, table', hi, hp, he⟩ := exists_intern (.literal lit) table
    exact ⟨_, table', by rw [assemble, Assembler.bind_ok hi]; rfl, hp, .literal span lit id he⟩
  | charClass span members =>
    intro table
    obtain ⟨id, table', hi, hp, he⟩ := exists_intern (.charClass members) table
    exact ⟨_, table', by rw [assemble, Assembler.bind_ok hi]; rfl, hp,
      .charClass span members id he⟩
  | any span =>
    intro table
    obtain ⟨id, table', hi, hp, he⟩ := exists_intern .any table
    exact ⟨_, table', by rw [assemble, Assembler.bind_ok hi]; rfl, hp, .any span id he⟩
  | ruleRef span name =>
    intro table
    obtain ⟨id, hi⟩ := h name (by rw [refs_ruleRef]; exact List.mem_singleton_self name)
    exact ⟨.ruleRef id, table, by rw [assemble, hi]; rfl, List.prefix_refl table,
      .ruleRef span name id hi⟩
  | predicate span negated code =>
    intro table
    exact ⟨_, table, by rw [assemble]; rfl, List.prefix_refl table, .predicate span negated code⟩
  | sequence span elements ih =>
    intro table
    obtain ⟨nodes, table', hn, hp, hd⟩ := exists_assembleAll (fun e hm => ih e hm fun name hname =>
      h name (mem_refs_sequence.mpr ⟨e, hm, hname⟩)) table
    exact ⟨_, table', by rw [assemble, Assembler.bind_ok hn]; rfl, hp,
      .sequence span elements nodes hd⟩
  | choice span alternatives ih =>
    intro table
    obtain ⟨nodes, table', hn, hp, hd⟩ := exists_assembleAll (fun e hm => ih e hm fun name hname =>
      h name (mem_refs_choice.mpr ⟨e, hm, hname⟩)) table
    exact ⟨_, table', by rw [assemble, Assembler.bind_ok hn]; rfl, hp,
      .choice span alternatives nodes hd⟩
  | wrapped span wrapper body ih =>
    intro table
    obtain ⟨operator, middle, ho, hp, hw⟩ := wrapper.exists_assemble table
    obtain ⟨node, last, hn, hp', hd⟩ := ih (by rwa [refs_wrapped] at h) middle
    refine ⟨.wrapped operator node, last, ?_, hp.trans hp', .wrapped span wrapper operator body
      node (hw.mono (getElem?_of_isPrefix hp')) hd⟩
    rw [assemble, Assembler.bind_ok ho, Assembler.bind_ok hn]
    rfl

/-- What has become a node refers to rules only that there are. -/
theorem Becomes.resolved {e : Expr} {node : Node} (h : e.Becomes ruleIndex node) :
    ∀ name ∈ e.refs, ∃ id, ruleIndex name = some id := by
  induction h using Becomes.induct with
  | literal | charClass | any | predicate =>
    intro name hm
    obtain ⟨part, hp, hr⟩ := mem_refs.mp hm
    rw [subterms, List.mem_singleton] at hp
    · cases hp
      cases hr
    all_goals
      intros
      contradiction
  | ruleRef span name id hi =>
    intro name' hm
    rw [refs_ruleRef, List.mem_singleton] at hm
    exact ⟨id, hm ▸ hi⟩
  | sequence span elements nodes _ ih =>
    intro name hm
    obtain ⟨e, he, hname⟩ := mem_refs_sequence.mp hm
    obtain ⟨node, -, -, hresolved⟩ := exists_of_forall₂ ih.flip he
    exact hresolved name hname
  | choice span alternatives nodes _ ih =>
    intro name hm
    obtain ⟨e, he, hname⟩ := mem_refs_choice.mp hm
    obtain ⟨node, -, -, hresolved⟩ := exists_of_forall₂ ih.flip he
    exact hresolved name hname
  | wrapped span wrapper operator body node _ _ ih =>
    rw [refs_wrapped]
    exact ih

end Expr

/-- What a compiler comes to step by step. -/
theorem Compiler.bind_ok {α β : Type} {x : Compiler α} {f : α → Compiler β} {a : α}
    {notes middle : Array Note} (h : x.run.run notes = (.ok a, middle)) :
    (x >>= f).run.run notes = (f a).run.run middle := by
  rw [ExceptT.run_bind, StateT.run_bind, h]
  rfl

namespace Compiler

variable {α β : Type}

/-- Whatever was noted before, the compilation comes through and gives the value. -/
def Yields (x : Compiler α) (a : α) : Prop :=
  ∀ notes, ∃ notes', x.run.run notes = (.ok a, notes')

theorem yields_pure (a : α) : Yields (pure a) a := fun notes => ⟨notes, rfl⟩

theorem yields_takeNote (note : Note) : Yields (takeNote note) () :=
  fun notes => ⟨notes.push note, rfl⟩

theorem Yields.bind {x : Compiler α} {f : α → Compiler β} {a : α} {b : β} (hx : Yields x a)
    (hf : Yields (f a) b) : Yields (x >>= f) b := by
  intro notes
  obtain ⟨middle, hx⟩ := hx notes
  obtain ⟨notes', hf⟩ := hf middle
  exact ⟨notes', (bind_ok hx).trans hf⟩

theorem yields_forM {f : α → Compiler Unit} (h : ∀ a, Yields (f a) ()) (as : List α) :
    Yields (as.forM f) () := by
  induction as with
  | nil => exact yields_pure ()
  | cons a as ih => exact (h a).bind ih

/-- A check that finds nothing comes through. -/
theorem yields_refuse {found : Option GrammarError} (h : found = none) (a : α) :
    Yields (do refuse found; return a : Compiler α) a := by
  rw [h]
  exact (yields_pure ()).bind (yields_pure a)

end Compiler

namespace Grammar

structure Denotes (grammar : Grammar) (options : Options) (program : Program) : Prop where
  rules : List.Forall₂ (fun rule found => found.name = rule.name ∧
    rule.expr.Denotes grammar.ruleIndex? (options.optimize == .speed) program.expectations
      found.node) grammar.rules program.rules.toList
  startRules : List.Forall₂ (fun name id => grammar.ruleIndex? name = some id)
    (options.startRules grammar.firstRule?) program.startRules
  endExpectation : program.expectations[program.endExpectation]? = some .endOfInput
  initializer : program.initializer = grammar.initializer.map (·.code)
  cached : program.cached = options.cache
  traced : program.traced = options.trace

/-- The rule of the grammar that denotes a rule of the program. -/
theorem Denotes.exists_source {grammar : Grammar} {options : Options} {program : Program}
    (h : grammar.Denotes options program) {id : RuleId} {found : CompiledRule}
    (hr : program.rules[id]? = some found) :
    ∃ rule ∈ grammar.rules, rule.expr.Denotes grammar.ruleIndex? (options.optimize == .speed)
      program.expectations found.node := by
  have hmem : found ∈ program.rules.toList := Array.mem_toList_iff.mpr (Array.mem_of_getElem? hr)
  obtain ⟨rule, hrule, -, he⟩ := exists_of_forall₂ h.rules hmem
  exact ⟨rule, hrule, he⟩

/-- The rules that are referred to and those to start from are declared. -/
structure Resolved (grammar : Grammar) (options : Options) : Prop where
  refs : ∀ rule ∈ grammar.rules, ∀ name ∈ rule.expr.refs, ∃ id, grammar.ruleIndex? name = some id
  startRules : ∀ name ∈ options.startRules grammar.firstRule?,
    ∃ id, grammar.ruleIndex? name = some id
  startable : options.startRules grammar.firstRule? ≠ []

theorem exists_assembleRules {forSpeed : Bool} {ruleIndex : String → Option RuleId}
    {rules : List Rule} (h : ∀ rule ∈ rules, rule.expr.Assembles ruleIndex forSpeed)
    (table : List Expectation) :
    ∃ found table', (rules.mapM fun rule => (return ⟨rule.name,
        ← rule.expr.assemble ruleIndex forSpeed⟩ : Assembler CompiledRule)) table =
      .ok (found, table') ∧ table <+: table' ∧
      List.Forall₂ (fun rule found => found.name = rule.name ∧
        rule.expr.Denotes ruleIndex forSpeed table'.toArray found.node) rules found := by
  induction rules generalizing table with
  | nil => exact ⟨[], table, rfl, List.prefix_refl table, .nil⟩
  | cons rule rules ih =>
    obtain ⟨node, middle, hn, hp, hd⟩ := h rule List.mem_cons_self table
    obtain ⟨found, last, hf, hp', hds⟩ := ih (fun r hm => h r (List.mem_cons_of_mem _ hm)) middle
    refine ⟨⟨rule.name, node⟩ :: found, last, ?_, hp.trans hp',
      .cons ⟨rfl, hd.mono (getElem?_of_isPrefix hp')⟩ hds⟩
    rw [List.mapM_cons, Assembler.bind_ok (Assembler.bind_ok hn), Assembler.bind_ok hf]
    rfl

theorem exists_assembleStartRules {grammar : Grammar} {names : List String} (hn : names ≠ [])
    (h : ∀ name ∈ names, ∃ id, grammar.ruleIndex? name = some id) :
    ∃ ids, grammar.assembleStartRules names = .ok ids ∧
      List.Forall₂ (fun name id => grammar.ruleIndex? name = some id) names ids := by
  have hids : ∃ ids, List.Forall₂ (fun name id => grammar.ruleIndex? name = some id) names ids := by
    clear hn
    induction names with
    | nil => exact ⟨[], .nil⟩
    | cons name names ih =>
      obtain ⟨id, hi⟩ := h name List.mem_cons_self
      obtain ⟨ids, hids⟩ := ih fun n hm => h n (List.mem_cons_of_mem _ hm)
      exact ⟨id :: ids, .cons hi hids⟩
  obtain ⟨ids, hids⟩ := hids
  refine ⟨ids, ?_, hids⟩
  refine (bind_of_ok (mapM_eq_ok_iff.mpr (hids.imp fun name id hi => by rw [hi]; rfl))).trans ?_
  cases hids with
  | nil => exact absurd rfl hn
  | cons hi hids => rfl

/-- Assembly comes through if all names are declared. -/
theorem exists_assemble {grammar : Grammar} {options : Options} (h : grammar.Resolved options) :
    ∃ program, grammar.assemble options = .ok program ∧ grammar.Denotes options program := by
  have hassembles (rule : Rule) (hm : rule ∈ grammar.rules) :
      rule.expr.Assembles grammar.ruleIndex? (options.optimize == .speed) :=
    Expr.assembles_of_refs (h.refs rule hm)
  obtain ⟨rules, table, hr, -, hrules⟩ := exists_assembleRules hassembles []
  obtain ⟨ids, hs, hids⟩ := exists_assembleStartRules h.startable h.startRules
  obtain ⟨endExpectation, table', he, hp, hend⟩ := exists_intern .endOfInput table
  refine ⟨⟨rules.toArray, table'.toArray, endExpectation, grammar.initializer.map (·.code), ids,
    options.cache, options.trace⟩, ?_, ?_, hids, hend, rfl, rfl, rfl⟩
  · exact (bind_of_ok hr).trans ((bind_of_ok hs).trans (bind_of_ok he))
  · exact hrules.imp fun rule found hf => ⟨hf.1, hf.2.mono (getElem?_of_isPrefix hp)⟩

/-- All names are declared if assembly comes through. -/
theorem resolved_of_assemble {grammar : Grammar} {options : Options} {program : Program}
    (h : grammar.assemble options = .ok program) : grammar.Resolved options := by
  have hb := becomes_of_assemble h
  obtain ⟨⟨rules, table⟩, -, h⟩ := bind_eq_ok h
  obtain ⟨startRules, hs, -⟩ := bind_eq_ok h
  unfold assembleStartRules at hs
  obtain ⟨ids, hm, hs⟩ := bind_eq_ok hs
  have hids := mapM_eq_ok_iff.mp hm
  refine ⟨fun rule hr => ?_, fun name hn => ?_, fun hn => ?_⟩
  · obtain ⟨found, -, -, he⟩ := exists_of_forall₂ hb.rules.flip hr
    exact he.resolved
  · obtain ⟨id, -, hi⟩ := exists_of_forall₂ hids.flip hn
    refine ⟨id, ?_⟩
    split at hi
    · cases hi
      assumption
    · cases hi
  · rw [hn] at hids
    cases hids
    cases hs

theorem denotes_of_assemble {grammar : Grammar} {options : Options} {program : Program}
    (h : grammar.assemble options = .ok program) : grammar.Denotes options program := by
  obtain ⟨program', h', hd⟩ := exists_assemble (resolved_of_assemble h)
  cases h.symm.trans h'
  exact hd

/-- Parsers start from the rules of the names that the options tell, in this order. -/
theorem Denotes.startRuleNames_eq {grammar : Grammar} {options : Options} {program : Program}
    (h : grammar.Denotes options program) (hb : grammar.Becomes options program) :
    program.startRuleNames = options.startRules grammar.firstRule? := by
  have hnamed : List.Forall₂ (fun name id => program.ruleName? id = some name)
      (options.startRules grammar.firstRule?) program.startRules := by
    refine h.startRules.imp fun name id hi => ?_
    obtain ⟨found, hf, hname⟩ := hb.exists_rule hi
    rw [Program.ruleName?, hf, Option.map_some, hname]
  unfold Program.startRuleNames
  generalize options.startRules grammar.firstRule? = names at hnamed
  generalize program.startRules = ids at hnamed
  induction hnamed with
  | nil => rfl
  | cons hname _ ih => rw [List.filterMap_cons_some hname, ih]

/-- The parser is what assembly makes of what the passes leave. -/
theorem compiles_of_leaves {grammar left : Grammar} {passes : Passes} {options : Options}
    {notes : Array Note} {program : Program} (ho : options.output = .parser)
    (hl : (grammar.runPasses options passes.all).run.run #[] = (.ok left, notes))
    (ha : left.assemble options = .ok program) : grammar.Compiles passes options program := by
  have hrun : (grammar.compile passes options).run.run #[] = (left.finish options).run.run notes :=
    Compiler.bind_ok hl
  unfold Compiles parser?
  rw [hrun, finish, ho]
  dsimp only
  rw [ha]
  rfl

/-- Whether rules are traced may be chosen for any parser, and nothing else depends on it. -/
theorem compiles_trace {grammar : Grammar} {passes : Passes} {options : Options} {program : Program}
    (h : grammar.Compiles passes options program) (trace : Bool) :
    grammar.Compiles passes { options with trace := trace } { program with traced := trace } := by
  have ho := output_of_compiles h
  obtain ⟨left, notes, hl, ha⟩ := compiles_inv h
  have htraced : left.assemble { options with trace := trace } =
      .ok { program with traced := trace } := by
    refine (assemble_flags ha options.cache trace).trans ?_
    rw [← (becomes_of_assemble ha).cached]
  rw [← runPasses_flags options options.cache trace] at hl
  exact compiles_of_leaves ho hl htraced

section Passes

variable {grammar left : Grammar} {options : Options}

open Compiler in
theorem yields_runPasses_cons {pass : Pass} {passes : List Pass} {middle : Grammar}
    (h : (pass.run options grammar).Yields middle)
    (h' : (middle.runPasses options passes).Yields left) :
    (grammar.runPasses options (pass :: passes)).Yields left :=
  (yields_takeNote _).bind (h.bind h')

open Compiler in
/-- The checks come through if they find nothing. -/
theorem Passing.yields_checks (h : grammar.Passing options) {passes : List Pass}
    (h' : (grammar.runPasses options passes).Yields left) :
    (grammar.runPasses options (Passes.standard.checks ++ passes)).Yields left := by
  refine yields_runPasses_cons (yields_refuse h.duplicateRules _) ?_
  refine yields_runPasses_cons (yields_refuse h.undefinedRules _) ?_
  refine yields_runPasses_cons (yields_refuse h.startRules _) ?_
  refine yields_runPasses_cons (yields_refuse h.duplicateLabels _) ?_
  refine yields_runPasses_cons (yields_refuse h.leftRecursion _) ?_
  exact yields_runPasses_cons (yields_refuse h.emptyRepetition _) h'

open Compiler in
theorem yields_removeProxies (grammar : Grammar) (options : Options) :
    (Pass.removeProxies.run options grammar).Yields
      (grammar.removeProxies (options.startRules grammar.firstRule?)).1 :=
  (yields_forM (fun _ => yields_takeNote _) _).bind (yields_pure _)

open Compiler in
/-- The standard passes come through if the checks find nothing. -/
theorem Passing.yields_runPasses (h : grammar.Passing options) :
    (grammar.runPasses options Passes.standard.all).Yields (grammar.transformed options) :=
  h.yields_checks (yields_runPasses_cons (grammar.yields_removeProxies options)
    (yields_runPasses_cons (yields_pure _) (yields_pure _)))

open Compiler in
theorem yields_program {program : Program} (ho : options.output = .parser)
    (h : grammar.assemble options = .ok program) :
    (grammar.finish options).Yields (.parser program) := by
  unfold finish
  rw [ho, h]
  exact (yields_pure program).bind ((yields_takeNote _).bind (yields_pure _))

/-- A parser comes of what the passes leave, if that can be assembled. -/
theorem compiles_of_yields {passes : Passes} {program : Program} (ho : options.output = .parser)
    (hl : (grammar.runPasses options passes.all).Yields left)
    (ha : left.assemble options = .ok program) : grammar.Compiles passes options program := by
  obtain ⟨notes, hl⟩ := hl #[]
  exact compiles_of_leaves ho hl ha

end Passes

end Grammar
end Peg
