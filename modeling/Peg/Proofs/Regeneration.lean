import Peg.Proofs.Plainness

/-! Source artifacts. The text of a compiled grammar is accepted again, and the parser that it
becomes parses every input to what the one does that was compiled directly. Between the two lie
removing proxies and groups, writing and reading the grammar, and removing proxies and groups once
more, as what a group stood around may be a mere reference without it. Where the checks find
nothing, nothing after them fails, neither assembly nor writing. -/
namespace Peg

namespace Grammar

variable {grammar : Grammar} {options : Options} {rule : String → Bool}

open Compiler in
theorem yields_source {text : String} (ho : options.output = .source)
    (h : grammar.render = .ok text) : (grammar.finish options).Yields
      (.source ⟨text, options.format, options.exportVar, options.dependencies⟩) := by
  unfold finish
  rw [ho, h]
  exact (yields_pure text).bind (yields_pure _)

theorem Checked.transformed (h : grammar.Checked options rule) :
    (grammar.transformed options).Checked options rule :=
  h.removeProxies.of_mimics_eq (mimics_simplify _ _)

theorem Plain.transformed (h : grammar.Plain) : (grammar.transformed options).Plain :=
  (h.removeProxies _).simplify _

/-- What the standard passes make of a grammar becomes a parser that parses every input to the same,
unless that ends at the limit of nested rules. -/
theorem transformed_follows (h : grammar.Checked options rule) {p q : Program}
    (hp : grammar.assemble options = .ok p)
    (hq : (grammar.transformed options).assemble options = .ok q) :
    q.Follows p := by
  obtain ⟨between, hb, hd⟩ := exists_assemble h.removeProxies.resolved
  exact Program.Follows.trans (removeProxies_follows h hp hb)
    (Program.Follows.of_mirrors (mirrors_simplify options _ _) hd (denotes_of_assemble hq))

/-- Parsing starts from the same rules as before the transformations. -/
theorem startRules_transformed (options : Options) (grammar : Grammar) :
    options.startRules (grammar.transformed options).firstRule? =
      options.startRules grammar.firstRule? :=
  (mimics_simplify _ _).mirrors options |>.startRules.trans
    (startRules_removeProxies options grammar)

theorem ruleIndex?_firstRule? {name : String} (h : grammar.firstRule? = some name) :
    grammar.ruleIndex? name = some 0 := by
  unfold firstRule? at h
  unfold ruleIndex?
  cases hrules : grammar.rules with
  | nil =>
    rw [hrules] at h
    cases h
  | cons first rules =>
    rw [hrules] at h
    have hname : (first.name == name) = true := beq_iff_eq.mpr (Option.some.inj h)
    rw [List.findIdx?_cons, hname]
    rfl

/-- A rule from which parsing may start is one of the grammar. -/
theorem Resolved.nonempty (h : grammar.Resolved options) : grammar.rules ≠ [] := by
  obtain ⟨name, names, hnames⟩ := List.exists_cons_of_ne_nil h.startable
  obtain ⟨id, hi⟩ := h.startRules name (hnames ▸ List.mem_cons_self)
  obtain ⟨found, hf, -⟩ := rule?_of_ruleIndex? hi
  exact List.ne_nil_of_mem (List.mem_of_getElem? hf)

/-- Written and read again, a grammar that is plain passes the checks that it passed, and becomes a
parser that parses every input to the same. -/
theorem Plain.exists_reread (h : grammar.Plain) (hc : grammar.Checked options rule) :
    ∃ grammar', grammar.render = .ok grammar.text ∧ parse grammar.text = .ok grammar' ∧
      grammar'.Checked options rule ∧ ∀ p q, grammar.assemble options = .ok p →
        grammar'.assemble options = .ok q → q.Follows p := by
  have hw := h.writable hc.resolved.nonempty
  have hcuts := h.cutsLabels
  obtain ⟨grammar', hparse, hsame⟩ := hw.exists_parse
  have hgrouped := hc.of_mimics_eq (mimics_regroup hcuts)
  refine ⟨grammar', render_eq_ok hw.bodies, hparse,
    hgrouped.of_mimics_eq (mimics_of_unlocated hsame), ?_⟩
  intro p q hp hq
  obtain ⟨grouped, hg, hd⟩ := exists_assemble hgrouped.resolved
  exact Program.Follows.trans
    (Program.Follows.of_mirrors (mirrors_regroup options hcuts) (denotes_of_assemble hp) hd)
    (Program.Follows.of_mirrors (mirrors_of_unlocated options hsame) hd (denotes_of_assemble hq))

end Grammar

section Generation

variable {text : String} {options : Options} {grammar : Grammar} {artifact : Artifact}

theorem generate_eq_ok (hparse : Grammar.parse text = .ok grammar) (h : grammar.Passing options)
    (hf : Compiler.Yields ((grammar.transformed options).finish options) artifact) :
    (generate text options []).1 = .ok artifact := by
  have hcompile : Compiler.Yields (do
      takeNote (.compiling grammar.rules.length Passes.standard.all.length)
      grammar.compile .standard options) artifact :=
    (Compiler.yields_takeNote _).bind (h.yields_runPasses.bind hf)
  obtain ⟨notes, hrun⟩ := hcompile #[]
  unfold generate
  rw [hparse]
  change (((do
      takeNote (.compiling grammar.rules.length Passes.standard.all.length)
      grammar.compile .standard options : Compiler Artifact).run.run #[]).1.mapError _) = _
  rw [hrun]
  rfl

theorem generate_inv (h : (generate text options []).1 = .ok artifact) :
    ∃ grammar, Grammar.parse text = .ok grammar ∧ grammar.Passing options ∧
      ∃ notes notes', ((grammar.transformed options).finish options).run.run notes =
        (.ok artifact, notes') := by
  unfold generate at h
  cases hparse : Grammar.parse text with
  | error e =>
    rw [hparse] at h
    cases h
  | ok grammar =>
    rw [hparse] at h
    change (((do
      takeNote (.compiling grammar.rules.length Passes.standard.all.length)
      grammar.compile .standard options : Compiler Artifact).run.run #[]).1.mapError _) = _ at h
    rcases hrun : (do
      takeNote (.compiling grammar.rules.length Passes.standard.all.length)
      grammar.compile .standard options : Compiler Artifact).run.run #[] with ⟨found, notes⟩
    rw [hrun] at h
    cases found with
    | error e => cases h
    | ok made =>
      cases h
      obtain ⟨-, n₁, -, hrun⟩ := Compiler.bind_inv hrun
      obtain ⟨left, n₂, hl, hrun⟩ := Compiler.bind_inv hrun
      obtain ⟨hpassing, rfl⟩ := Grammar.passing_of_leaves ⟨n₁, n₂, hl⟩
      exact ⟨grammar, rfl, hpassing, n₂, notes, hrun⟩

/-- Where a parser comes of a grammar's text, so does a source artifact, whose text is accepted
again; and the parser that this becomes parses every input to the same value and offset or the same
error, with the same calls of the host, unless the parse ends at the limit of nested rules. -/
theorem regeneration_keeps_parses (ho : options.output = .parser)
    (h : (generate text options []).1 = .ok artifact) :
    ∃ direct source again, artifact = .parser direct ∧
      (generate text { options with output := .source } []).1 = .ok (.source source) ∧
      (generate source.text options []).1 = .ok (.parser again) ∧
      ∀ {σ α ε : Type} (host : Host σ α ε) (memory : σ) (input : String) (how : ParseOptions),
        (∀ limit offset, (direct.parse host memory input how).outcome ≠
          .error (.nestingLimit limit offset)) →
        (again.parse host memory input how).outcome = (direct.parse host memory input how).outcome ∧
        (again.parse host memory input how).calls = (direct.parse host memory input how).calls := by
  obtain ⟨grammar, hparse, hpassing, notes, notes', hfinish⟩ := generate_inv h
  obtain ⟨-, direct, rfl, hdirect⟩ | ⟨hsource, -⟩ := Grammar.finish_inv hfinish
  · have hplain : (grammar.transformed options).Plain :=
      (Grammar.written_of_parse hparse).plain.transformed
    have hchecked := hpassing.checked.transformed
    obtain ⟨grammar', hrender, hparse', hchecked', hreread⟩ := hplain.exists_reread hchecked
    -- The parser of what was read again stands between the two.
    obtain ⟨between, hbetween, -⟩ := Grammar.exists_assemble hchecked'.resolved
    obtain ⟨again, hagain, -⟩ := Grammar.exists_assemble hchecked'.transformed.resolved
    have hpassing' : grammar.Passing { options with output := .source } :=
      { hpassing with }
    have hfollows : again.Follows direct := Program.Follows.trans
      (hreread direct between hdirect hbetween)
      (Grammar.transformed_follows hchecked' hbetween hagain)
    exact ⟨direct, _, again, rfl,
      generate_eq_ok hparse hpassing' (Grammar.yields_source rfl hrender),
      generate_eq_ok hparse' hchecked'.passing (Grammar.yields_program ho hagain), hfollows⟩
  · rw [ho] at hsource
    cases hsource

/-- A grammar in which `number` refers to `digit` in a group. The source artifact has the rule
without the group, as a proxy; so the parser that it becomes has it no more. -/
def groupedText : String :=
  "start = sign / number\nnumber = (digit)\nsign = d:digit \"-\" \x7b label d \x7d\ndigit = [0-9]\n"

def groupedParser : Program :=
  ((generate groupedText {} []).1.toOption.bind Artifact.parser?).get (by decide +kernel)

theorem generate_groupedText : (generate groupedText {} []).1 = .ok (.parser groupedParser) :=
  Grammar.eq_parser_of_toOption (Option.some_get _).symm

theorem regeneration_keeps_parses_grouped :
    (generate groupedText {} []).1 = .ok (.parser groupedParser) ∧
    ∃ source again, (generate groupedText { output := .source } []).1 = .ok (.source source) ∧
      (generate source.text {} []).1 = .ok (.parser again) ∧
      (again.parse Host.script 0 "7-" {}).outcome =
        (groupedParser.parse Host.script 0 "7-" {}).outcome ∧
      (again.parse Host.script 0 "7-" {}).calls =
        (groupedParser.parse Host.script 0 "7-" {}).calls := by
  obtain ⟨direct, source, again, hdirect, hsource, hagain, hkeeps⟩ :=
    regeneration_keeps_parses rfl generate_groupedText
  cases hdirect
  have hmatched : (groupedParser.parse Host.script 0 "7-" {}).outcome.toOption.isSome = true := by
    decide +kernel
  refine ⟨generate_groupedText, source, again, hsource, hagain,
    hkeeps Host.script 0 "7-" {} fun limit offset he => ?_⟩
  rw [he] at hmatched
  cases hmatched

/-- Where the checks find nothing, nothing after them fails. The transformations come through, and
what they leave becomes a parser, in which every reference and every start rule is resolved and
parsing starts from the rules that the options tell, or else from the rule that was the first one;
and if the grammar was read from a text, what they leave can be written. -/
theorem succeeds_behind_checks {left : Grammar}
    (h : grammar.Leaves Passes.standard.checks options left) :
    ∃ slim program, Compiler.Yields (left.runPasses options Passes.standard.transforms) slim ∧
      slim.assemble options = .ok program ∧ slim.Resolved options ∧
      program.startRuleNames = options.startRules grammar.firstRule? ∧
      (options.allowedStartRules = [] →
        slim.firstRule? = grammar.firstRule? ∧ program.startRules = [0]) ∧
      ∀ text, Grammar.parse text = .ok grammar → slim.render = .ok slim.text := by
  obtain ⟨hpassing, rfl⟩ := Grammar.passing_of_checks h
  have hchecked := hpassing.checked.transformed
  have hstart := Grammar.startRules_transformed options left
  obtain ⟨program, hprogram, hdenotes⟩ := Grammar.exists_assemble hchecked.resolved
  refine ⟨left.transformed options, program,
    Grammar.yields_runPasses_cons (left.yields_removeProxies options)
      (Grammar.yields_runPasses_cons (Compiler.yields_pure _) (Compiler.yields_pure _)),
    hprogram, hchecked.resolved,
    (hdenotes.startRuleNames_eq (Grammar.becomes_of_assemble hprogram)).trans hstart,
    fun hnone => ?_, fun text hparse => ?_⟩
  · have hfirst : ∀ first, options.startRules first = first.toList :=
      options.startRules_of_isEmpty (List.isEmpty_iff.mpr hnone)
    have hstartable := hpassing.checked.resolved.startable
    rw [hfirst, hfirst] at hstart
    rw [hfirst] at hstartable
    obtain ⟨name, hname⟩ : ∃ name, left.firstRule? = some name := by
      cases hn : left.firstRule? with
      | none => rw [hn] at hstartable; exact absurd rfl hstartable
      | some name => exact ⟨name, rfl⟩
    have hsame := congrArg List.head? hstart
    rw [Option.head?_toList, Option.head?_toList] at hsame
    have hids := hdenotes.startRules
    rw [hfirst, hsame, hname] at hids
    obtain ⟨id, ids, hi, hnil, hids⟩ := List.forall₂_cons_left_iff.mp hids
    have hid : 0 = id :=
      Option.some.inj ((Grammar.ruleIndex?_firstRule? (hsame.trans hname)).symm.trans hi)
    rw [List.forall₂_nil_left_iff.mp hnil, ← hid] at hids
    exact ⟨hsame, hids⟩
  · have hplain : (left.transformed options).Plain :=
      (Grammar.written_of_parse hparse).plain.transformed
    exact Grammar.render_eq_ok fun rule hm => (hplain.bodies rule hm).spelled

theorem succeeds_behind_checks_grouped : ∃ grammar slim program,
    grammar.Leaves Passes.standard.checks {} grammar ∧ Grammar.parse groupedText = .ok grammar ∧
      Compiler.Yields (grammar.runPasses {} Passes.standard.transforms) slim ∧
      slim.assemble {} = .ok program ∧ program.startRules = [0] ∧
      slim.render = .ok slim.text := by
  obtain ⟨grammar, hparse, hpassing, -⟩ := generate_inv generate_groupedText
  have hnone : Compiler.Yields (grammar.runPasses {} []) grammar := Compiler.yields_pure grammar
  obtain ⟨notes, hchecks⟩ := hpassing.yields_checks hnone #[]
  rw [List.append_nil] at hchecks
  have hleaves : grammar.Leaves Passes.standard.checks {} grammar := ⟨#[], notes, hchecks⟩
  obtain ⟨slim, program, hslim, hprogram, -, -, hfirst, htext⟩ := succeeds_behind_checks hleaves
  exact ⟨grammar, slim, program, hleaves, hparse, hslim, hprogram, (hfirst rfl).2,
    htext groupedText hparse⟩

end Generation

end Peg
