import Peg.Check.Declarations
import Peg.Check.Labels
import Peg.Check.Loops
import Peg.Compile.Assembly
import Peg.Notation.Printer
import Peg.Notation.Reader
import Peg.Transform.Proxies
import Peg.Transform.Simplification

/-!
The compiler. Passes check a grammar, then transform it; what they leave becomes a parser or source
text. The first error ends the compilation. What happens on the way is noted.
-/

namespace Peg

inductive Pass where
  | duplicateRules
  | undefinedRules
  | startRules
  | duplicateLabels
  | leftRecursion
  | emptyRepetition
  | removeProxies
  | simplify
  /-- Refuses grammars that have a rule of this name. -/
  | forbid (rule : String)
deriving DecidableEq

inductive Note where
  | compiling (rules passes : Nat)
  | running (pass : String) (rules : Nat)
  | removedProxy (rule : String)
  | assembled (rules startRules expectations : Nat)

namespace Note

def message : Note → String
  | compiling rules passes => s!"Compiling grammar with {rules} rule(s) and {passes} pass(es)"
  | running pass rules => s!"Running pass '{pass}' on {rules} rule(s)"
  | removedProxy rule => s!"Removed proxy rule '{rule}'"
  | assembled rules startRules expectations =>
    s!"Generated parser with {rules} rule(s), {startRules} start rule(s) and "
      ++ s!"{expectations} expectation(s)"

def render (note : Note) : String := "DEBUG " ++ note.message

end Note

abbrev Compiler := ExceptT GrammarError (StateM (Array Note))

def takeNote (note : Note) : Compiler Unit :=
  modify (·.push note)

def refuse : Option GrammarError → Compiler Unit
  | some e => throw e
  | none => return ()

namespace Pass

def name : Pass → String
  | duplicateRules => "report_duplicate_rules"
  | undefinedRules => "report_undefined_rules"
  | startRules => "report_start_rules"
  | duplicateLabels => "report_duplicate_labels"
  | leftRecursion => "report_infinite_recursion"
  | emptyRepetition => "report_infinite_repetition"
  | removeProxies => "remove_proxy_rules"
  | simplify => "simplify"
  | forbid rule => s!"forbid {rule}"

def all : List Pass :=
  [duplicateRules, undefinedRules, startRules, duplicateLabels, leftRecursion, emptyRepetition,
   removeProxies, simplify]

def ofName? (name : String) : Option Pass := all.find? (·.name == name)

def run (pass : Pass) (options : Options) (grammar : Grammar) : Compiler Grammar := do
  match pass with
  | duplicateRules =>
    refuse grammar.duplicateRule?
    return grammar
  | undefinedRules =>
    refuse grammar.undefinedRule?
    return grammar
  | startRules =>
    refuse (grammar.badStartRule? (options.startRules grammar.firstRule?))
    return grammar
  | duplicateLabels =>
    refuse grammar.duplicateLabel?
    return grammar
  | leftRecursion =>
    refuse grammar.leftRecursion?
    return grammar
  | emptyRepetition =>
    refuse grammar.emptyRepetition?
    return grammar
  | removeProxies =>
    let (grammar, removed) := grammar.removeProxies (options.startRules grammar.firstRule?)
    removed.reverse.forM fun rule => takeNote (.removedProxy rule)
    return grammar
  | simplify => return grammar.simplify (options.optimize == .speed)
  | forbid rule =>
    refuse ((grammar.rule? rule).map fun found => ⟨found.span, .forbiddenRule⟩)
    return grammar

end Pass

/-- The passes of a compilation: the checks come before the transformations. -/
structure Passes where
  checks : List Pass
  transforms : List Pass

namespace Passes

def standard : Passes :=
  ⟨[.duplicateRules, .undefinedRules, .startRules, .duplicateLabels, .leftRecursion,
    .emptyRepetition], [.removeProxies, .simplify]⟩

def all (passes : Passes) : List Pass := passes.checks ++ passes.transforms

def remove (passes : Passes) (name : String) : Passes :=
  ⟨passes.checks.filter (·.name != name), passes.transforms.filter (·.name != name)⟩

end Passes

structure Plugin where
  removed : List String := []
  checks : List Pass := []
  transforms : List Pass := []
  cache : Option Bool := none
  startRules : Option (List String) := none
  forbidden : Option String := none

namespace Plugin

/-- Changes the passes: removes first, then adds at the end of the checks and transformations. -/
def extend (plugin : Plugin) (passes : Passes) : Passes :=
  let kept := plugin.removed.foldl Passes.remove passes
  ⟨kept.checks ++ plugin.checks ++ (plugin.forbidden.map Pass.forbid).toList,
   kept.transforms ++ plugin.transforms⟩

def configure (plugin : Plugin) (options : Options) : Options :=
  { options with
    cache := plugin.cache.getD options.cache
    allowedStartRules := plugin.startRules.getD options.allowedStartRules }

def applyAll (plugins : List Plugin) (passes : Passes) (options : Options) : Passes × Options :=
  plugins.foldl (fun (passes, options) plugin => (plugin.extend passes, plugin.configure options))
    (passes, options)

end Plugin

structure SourceArtifact where
  text : String
  format : ModuleFormat
  exportVar : Option String
  dependencies : List (String × String)

inductive Artifact where
  | parser (program : Program)
  | source (source : SourceArtifact)

namespace Artifact

def parser? : Artifact → Option Program
  | parser program => some program
  | source _ => none

end Artifact

namespace Grammar

def runPasses (options : Options) : List Pass → Grammar → Compiler Grammar
  | [], grammar => return grammar
  | pass :: passes, grammar => do
    takeNote (.running pass.name grammar.rules.length)
    runPasses options passes (← pass.run options grammar)

/-- What each of some passes leaves, up to the first that fails. -/
def stages (options : Options) : List Pass → Grammar → List (Pass × Except GrammarError Grammar)
  | [], _ => []
  | pass :: passes, grammar =>
    match ((pass.run options grammar).run.run #[]).1 with
    | .ok grammar => (pass, .ok grammar) :: stages options passes grammar
    | .error e => [(pass, .error e)]

def finish (options : Options) (grammar : Grammar) : Compiler Artifact := do
  match options.output with
  | .parser =>
    let program ← liftExcept (grammar.assemble options)
    takeNote (.assembled program.rules.size program.startRules.length program.expectations.size)
    return .parser program
  | .source =>
    let text ← liftExcept grammar.render
    return .source ⟨text, options.format, options.exportVar, options.dependencies⟩
where
  liftExcept {α : Type} : Except GrammarError α → Compiler α
    | .ok a => return a
    | .error e => throw e

def compile (grammar : Grammar) (passes : Passes) (options : Options) : Compiler Artifact := do
  finish options (← grammar.runPasses options passes.all)

end Grammar

inductive GenerateError where
  | unreadable (e : NotationError)
  | defective (e : GrammarError)
  | notAParser

namespace GenerateError

def message : GenerateError → String
  | unreadable e => e.describe
  | defective e => e.message
  | notAParser => "compilation produced a source artifact instead of a parser"

/-- The error under the line of the grammar that it is about, if it has one. -/
def report (source : String) : GenerateError → String
  | unreadable e => e.report source
  | defective e => e.report source
  | notAParser => "ERROR: " ++ message notAParser

end GenerateError

/-- Compiles a grammar's text with the standard passes and what plugins change. Gives the notes
taken, too. -/
def generate (text : String) (options : Options) (plugins : List Plugin) :
    Except GenerateError Artifact × Array Note :=
  match Grammar.parse text with
  | .error e => (.error (.unreadable e), #[])
  | .ok grammar =>
    let (passes, options) := Plugin.applyAll plugins .standard options
    let compilation : Compiler Artifact := do
      takeNote (.compiling grammar.rules.length passes.all.length)
      grammar.compile passes options
    let (artifact, notes) := compilation.run.run #[]
    (artifact.mapError .defective, notes)

end Peg
