import Peg.Proofs.Checks
import Peg.Proofs.Redirection

/-! Removal of proxies. Once the references to a proxy are led past it, nothing refers to it any
more, and nothing will again; so it can go unless parsing may start from it. What is left passes the
checks that the grammar passed, and parses every input to the same, unless that ends at the limit of
nested rules. -/
namespace Peg

/-- Unless the options tell others, the first rule is the only one from which parsing may start. -/
theorem Options.startRules_of_isEmpty (options : Options)
    (ho : options.allowedStartRules.isEmpty = true) (first : Option String) :
    options.startRules first = first.toList :=
  if_pos ho

namespace Grammar

variable {grammar : Grammar} {options : Options} {rule : String → Bool} {name : String}

def Unused (grammar : Grammar) (name : String) : Prop :=
  ∀ found ∈ grammar.rules, name ∉ found.expr.refs

theorem unused_redirect {old new : String} (hne : new ≠ old) :
    (grammar.redirect old new).Unused old := by
  intro found' hm' hn
  obtain ⟨found, -, rfl⟩ := List.mem_map.mp hm'
  obtain ⟨name, -, hpast⟩ := (found.expr.mimics_redirect old new).refs old hn
  rw [Expr.LedPast] at hpast
  split at hpast
  · exact hne hpast.symm
  · rename_i hother
    exact hother hpast.symm

theorem Unused.redirect (h : grammar.Unused name) {old new : String} (hnew : new ≠ name) :
    (grammar.redirect old new).Unused name := by
  intro found' hm' hn
  obtain ⟨found, hm, rfl⟩ := List.mem_map.mp hm'
  obtain ⟨name', hn', hpast⟩ := (found.expr.mimics_redirect old new).refs name hn
  rw [Expr.LedPast] at hpast
  split at hpast
  · exact hnew hpast.symm
  · exact h found hm (hpast ▸ hn')

theorem ne_of_proxyTarget? {proxy : Rule} {target : String}
    (h : proxy.proxyTarget? = some target) : target ≠ proxy.name := by
  obtain ⟨-, hne⟩ := Option.filter_eq_some_iff.mp h
  exact of_decide_eq_true hne

/-- The target of a proxy is used. -/
theorem Unused.ne_target (h : grammar.Unused name) {proxy : Rule} {target : String}
    (hm : proxy ∈ grammar.rules) (ht : proxy.proxyTarget? = some target) : target ≠ name := by
  rintro rfl
  obtain ⟨span, he⟩ := eq_of_proxyTarget? ht
  refine h proxy hm ?_
  rw [he, Expr.refs_ruleRef]
  exact List.mem_singleton_self target

theorem Unused.resolveProxies (h : grammar.Unused name) (names : List String)
    (indices : List Nat) : (grammar.resolveProxies names indices).1.Unused name :=
  resolveProxies_preserves (P := fun grammar => grammar.Unused name) names
    (fun _ _ _ _ hi ht h => h.redirect (h.ne_target (List.mem_of_getElem? hi) ht)) indices h

theorem names_resolveProxies (grammar : Grammar) (names : List String) (indices : List Nat) :
    (grammar.resolveProxies names indices).1.rules.map (·.name) = grammar.rules.map (·.name) :=
  resolveProxies_preserves
    (P := fun grammar' => grammar'.rules.map (·.name) = grammar.rules.map (·.name)) names
    (fun _ _ _ _ _ _ h => List.map_map.trans h) indices rfl

theorem names_resolveProxy (grammar : Grammar) (index : Nat) :
    (grammar.resolveProxy index).rules.map (·.name) = grammar.rules.map (·.name) :=
  grammar.names_resolveProxies [] [index]

/-- Rules keep their places. -/
theorem exists_of_names {grammar' : Grammar}
    (h : grammar'.rules.map (·.name) = grammar.rules.map (·.name)) {id : Nat} {found' : Rule}
    (hi : grammar'.rules[id]? = some found') :
    ∃ found, grammar.rules[id]? = some found ∧ found.name = found'.name := by
  have hname := congrArg (·[id]?) h
  rw [List.getElem?_map, List.getElem?_map, hi] at hname
  obtain ⟨found, hf, hn⟩ := Option.map_eq_some_iff.mp hname.symm
  exact ⟨found, hf, hn⟩

theorem isRemovable_iff {names : List String} {index : Nat} :
    grammar.isRemovable names index = true ↔ ∃ proxy target,
      grammar.rules[index]? = some proxy ∧ proxy.proxyTarget? = some target ∧
        proxy.name ∉ names := by
  unfold isRemovable
  cases grammar.rules[index]? with
  | none => simp
  | some proxy => simp [Option.isSome_iff_exists]

/-- Parsing does not start from what can go, and nothing refers to it any more. -/
theorem unused_of_removable (grammar : Grammar) (names : List String) (indices : List Nat)
    {index : Nat} (h : index ∈ (grammar.resolveProxies names indices).2) :
    ∃ found, grammar.rules[index]? = some found ∧ found.name ∉ names ∧
      (grammar.resolveProxies names indices).1.Unused found.name := by
  induction indices generalizing grammar with
  | nil => cases h
  | cons first indices ih =>
    have hlater (h : index ∈ ((grammar.resolveProxy first).resolveProxies names indices).2) :
        ∃ found, grammar.rules[index]? = some found ∧ found.name ∉ names ∧
          (grammar.resolveProxies names (first :: indices)).1.Unused found.name := by
      obtain ⟨found', hi', hn, hu⟩ := ih (grammar.resolveProxy first) h
      obtain ⟨found, hi, hname⟩ := exists_of_names (grammar.names_resolveProxy first) hi'
      exact ⟨found, hi, hname ▸ hn, hname ▸ hu⟩
    unfold Grammar.resolveProxies at h
    dsimp only at h
    split at h
    · rename_i hr
      rcases List.mem_cons.mp h with rfl | h
      · obtain ⟨proxy, target, hi, ht, hn⟩ := isRemovable_iff.mp hr
        refine ⟨proxy, hi, hn, ?_⟩
        have hresolved : grammar.resolveProxy index = grammar.redirect proxy.name target := by
          unfold resolveProxy
          rw [hi]
          dsimp only
          rw [ht]
        have hu : (grammar.resolveProxy index).Unused proxy.name := by
          rw [hresolved]
          exact unused_redirect (ne_of_proxyTarget? ht)
        exact hu.resolveProxies names indices
      · exact hlater h
    · exact hlater h

section Removal

variable {names : List String} {resolved : Grammar} {removable : List Nat}

/-- Rules stay from which parsing may start, and those that something refers to. -/
theorem not_mem_removable
    (h : grammar.resolveProxies names (List.range grammar.rules.length) = (resolved, removable))
    {id : Nat} {found : Rule} (hi : resolved.rules[id]? = some found)
    (hu : found.name ∈ names ∨ ¬ resolved.Unused found.name) : id ∉ removable := by
  intro hr
  have hremovable := unused_of_removable grammar names
    (List.range grammar.rules.length) (by rw [h]; exact hr)
  have hnames := grammar.names_resolveProxies names (List.range grammar.rules.length)
  rw [h] at hremovable hnames
  obtain ⟨found', hi', hn, hunused⟩ := hremovable
  obtain ⟨found'', hi'', hname⟩ := exists_of_names hnames hi
  cases hi'.symm.trans hi''
  rw [hname] at hn hunused
  exact hu.elim hn fun hused => hused hunused

theorem mem_removeProxies
    (h : grammar.resolveProxies names (List.range grammar.rules.length) = (resolved, removable))
    {id : Nat} {found : Rule} (hi : resolved.rules[id]? = some found)
    (hu : found.name ∈ names ∨ ¬ resolved.Unused found.name) :
    found ∈ (grammar.removeProxies names).1.rules := by
  rw [removeProxies_eq h]
  refine List.mem_map.mpr ⟨(found, id), List.mem_filter.mpr ⟨?_, ?_⟩, rfl⟩
  · exact List.mk_mem_zipIdx_iff_getElem?.mpr hi
  · rw [Bool.not_eq_true', ← Bool.not_eq_true, List.contains_iff_mem]
    exact not_mem_removable h hi hu

/-- The first rule stays the first one if parsing may start from it. -/
theorem firstRule?_removeProxies
    (h : grammar.resolveProxies names (List.range grammar.rules.length) = (resolved, removable))
    (hf : grammar.firstRule? = some name) (hn : name ∈ names) :
    (grammar.removeProxies names).1.firstRule? = some name := by
  have hnames := grammar.names_resolveProxies names (List.range grammar.rules.length)
  rw [h] at hnames
  rw [← firstRule?_of_names hnames] at hf
  rw [removeProxies_eq h]
  unfold firstRule? at hf ⊢
  cases hrules : resolved.rules with
  | nil =>
    rw [hrules] at hf
    cases hf
  | cons first rules =>
    rw [hrules] at hf
    have hname : first.name = name := Option.some.inj hf
    have hstays : 0 ∉ removable :=
      not_mem_removable h (by rw [hrules]; rfl) (Or.inl (hname.symm ▸ hn))
    simp [List.zipIdx_cons, hstays, hname]

end Removal

/-- The rules from which parsing starts are the same without proxies. -/
theorem startRules_removeProxies (options : Options) (grammar : Grammar) :
    options.startRules
        (grammar.removeProxies (options.startRules grammar.firstRule?)).1.firstRule? =
      options.startRules grammar.firstRule? := by
  by_cases ho : options.allowedStartRules.isEmpty = true
  · rw [options.startRules_of_isEmpty ho, options.startRules_of_isEmpty ho]
    rcases hr : grammar.resolveProxies grammar.firstRule?.toList (List.range grammar.rules.length)
      with ⟨resolved, removable⟩
    cases hf : grammar.firstRule? with
    | none =>
      have hrules : grammar.rules = [] := List.head?_eq_none_iff.mp (Option.map_eq_none_iff.mp hf)
      have hleft := (sublist_removeProxies hr).map (·.name)
      have hnames := grammar.names_resolveProxies grammar.firstRule?.toList
        (List.range grammar.rules.length)
      rw [hr, hrules] at hnames
      rw [hnames, List.map_nil, List.sublist_nil, List.map_eq_nil_iff, hf] at hleft
      rw [firstRule?, hleft]
      rfl
    | some name =>
      have hn : name ∈ grammar.firstRule?.toList := by
        rw [hf]
        exact List.mem_singleton_self name
      rw [← hf, firstRule?_removeProxies hr hf hn, hf]
  · unfold Options.startRules
    rw [if_neg ho, if_neg ho]

/-- What passes the checks does so without proxies, too. -/
theorem Checked.removeProxies (h : grammar.Checked options rule) :
    (grammar.removeProxies (options.startRules grammar.firstRule?)).1.Checked options rule := by
  rcases hr : grammar.resolveProxies (options.startRules grammar.firstRule?)
    (List.range grammar.rules.length) with ⟨resolved, removable⟩
  have hresolved : resolved.Checked options rule := by
    have hc := resolveProxies_preserves (P := fun grammar => grammar.Checked options rule)
      (options.startRules grammar.firstRule?)
      (fun _ _ _ _ hi ht hc => hc.redirect (List.mem_of_getElem? hi) ht)
      (List.range grammar.rules.length) h
    rwa [hr] at hc
  have hnames := grammar.names_resolveProxies (options.startRules grammar.firstRule?)
    (List.range grammar.rules.length)
  rw [hr] at hnames
  have hsublist := sublist_removeProxies hr
  have hstart := startRules_removeProxies options grammar
  have hdeclared {name : String} {id : Nat} (hi : resolved.ruleIndex? name = some id)
      (hu : name ∈ options.startRules grammar.firstRule? ∨ ¬ resolved.Unused name) :
      ∃ id, (grammar.removeProxies (options.startRules grammar.firstRule?)).1.ruleIndex? name =
        some id := by
    obtain ⟨found, hf, rfl, -⟩ := rule?_of_ruleIndex? hi
    refine exists_ruleIndex?_iff.mpr (List.find?_isSome.mpr ⟨found, ?_, beq_self_eq_true _⟩)
    exact mem_removeProxies hr hf hu
  refine ⟨(hsublist.map _).nodup hresolved.names,
    ⟨fun found hm name hn => ?_, fun name hn => ?_, ?_⟩,
    fun found hm => hresolved.labels found (hsublist.subset hm), ?_,
    fun found hm => hresolved.repeats found (hsublist.subset hm)⟩
  · obtain ⟨id, hi⟩ := hresolved.resolved.refs found (hsublist.subset hm) name hn
    exact hdeclared hi (Or.inr fun hu => hu found (hsublist.subset hm) hn)
  · rw [hstart] at hn
    have hn' : name ∈ options.startRules resolved.firstRule? := by
      rwa [firstRule?_of_names hnames]
    obtain ⟨id, hi⟩ := hresolved.resolved.startRules name hn'
    exact hdeclared hi (Or.inl hn)
  · rw [hstart]
    exact h.resolved.startable
  · have hdropped := hresolved.guarded.drop hsublist
    exact ⟨hdropped.consumes, hdropped.acyclic⟩

/-- Without proxies a grammar becomes a parser that parses every input to the same, unless that ends
at the limit of nested rules. -/
theorem removeProxies_follows (h : grammar.Checked options rule) {p q : Program}
    (hp : grammar.assemble options = .ok p)
    (hq : (grammar.removeProxies (options.startRules grammar.firstRule?)).1.assemble options =
      .ok q) :
    q.Follows p := by
  rcases hr : grammar.resolveProxies (options.startRules grammar.firstRule?)
    (List.range grammar.rules.length) with ⟨resolved, removable⟩
  -- References are led past one proxy after the other, and each step changes no parse.
  obtain ⟨hresolved, hfollows⟩ : resolved.Checked options rule ∧
      ∀ q, resolved.assemble options = .ok q → q.Follows p := by
    have hpreserves := resolveProxies_preserves
      (P := fun grammar => grammar.Checked options rule ∧
        ∀ q, grammar.assemble options = .ok q → q.Follows p)
      (options.startRules grammar.firstRule?) (fun grammar index proxy target hi ht hc => ?_)
      (List.range grammar.rules.length) ⟨h, fun q hq => ?_⟩
    · rwa [hr] at hpreserves
    · have hm := List.mem_of_getElem? hi
      refine ⟨hc.1.redirect hm ht, fun q hq => ?_⟩
      obtain ⟨between, hb, -⟩ := exists_assemble hc.1.resolved
      obtain ⟨span, he⟩ := eq_of_proxyTarget? ht
      exact Program.Follows.trans (hc.2 between hb) (redirect_follows hb hq hc.1.guarded
        ⟨proxy, rule?_of_mem hc.1.names hm, he⟩ (ne_of_proxyTarget? ht))
    · cases hp.symm.trans hq
      exact Program.Follows.refl p
  obtain ⟨between, hb, hd⟩ := exists_assemble hresolved.resolved
  refine Program.Follows.trans (hfollows between hb) (Program.Follows.of_mirrors
    ⟨fun name found hf => ?_, ?_, ?_⟩ hd (denotes_of_assemble hq))
  · have hm := (sublist_removeProxies hr).subset (List.mem_of_find?_eq_some hf)
    have hname := name_of_rule? hf
    exact ⟨found, hname ▸ rule?_of_mem hresolved.names hm, Expr.mimics_of_unlocated rfl⟩
  · have hnames := grammar.names_resolveProxies (options.startRules grammar.firstRule?)
      (List.range grammar.rules.length)
    rw [hr] at hnames
    rw [startRules_removeProxies options grammar, firstRule?_of_names hnames]
  · rw [removeProxies_eq hr]

/-- With and without its proxies, a grammar that passes the checks becomes a parser, and both parse
every input to the same value and offset or the same error, with the same calls of the host, unless
the parse with the proxies ends at the limit of nested rules. -/
theorem removeProxies_keeps_parses (ho : options.output = .parser) {left : Grammar}
    (h : grammar.Leaves Passes.standard.checks options left) :
    ∃ plain slim : Program, grammar.Compiles ⟨Passes.standard.checks, []⟩ options plain ∧
      grammar.Compiles ⟨Passes.standard.checks, [.removeProxies]⟩ options slim ∧
      ∀ {σ α ε : Type} (host : Host σ α ε) (memory : σ) (input : String) (how : ParseOptions),
        (∀ limit offset, (plain.parse host memory input how).outcome ≠
          .error (.nestingLimit limit offset)) →
        (slim.parse host memory input how).outcome = (plain.parse host memory input how).outcome ∧
        (slim.parse host memory input how).calls = (plain.parse host memory input how).calls := by
  obtain ⟨hpassing, rfl⟩ := passing_of_checks h
  have hchecked := hpassing.checked
  obtain ⟨plain, hp, -⟩ := exists_assemble hchecked.resolved
  obtain ⟨slim, hq, -⟩ := exists_assemble hchecked.removeProxies.resolved
  have hplain : (left.runPasses options (Passes.standard.checks ++ [])).Yields left :=
    hpassing.yields_checks (Compiler.yields_pure left)
  have hslim : (left.runPasses options (Passes.standard.checks ++ [.removeProxies])).Yields
      (left.removeProxies (options.startRules left.firstRule?)).1 :=
    hpassing.yields_checks (yields_runPasses_cons (left.yields_removeProxies options)
      (Compiler.yields_pure _))
  exact ⟨plain, slim, compiles_of_yields ho hplain hp, compiles_of_yields ho hslim hq,
    removeProxies_follows hchecked hp hq⟩

/-- Proxies of proxies, declared before what they stand for. Parsing may start from one of them, so
that it stays. -/
def chainedGrammar : Grammar where
  initializer := none
  rules := [
    ⟨"start", .choice .none [
      .sequence .none [.ruleRef .none "first", .literal .none ⟨"c", false⟩],
      .sequence .none [.ruleRef .none "second", .literal .none ⟨"d", false⟩]], .none⟩,
    ⟨"first", .ruleRef .none "second", .none⟩,
    ⟨"second", .ruleRef .none "word", .none⟩,
    ⟨"word", .literal .none ⟨"a", false⟩, .none⟩]
  span := .none

def chainedOptions : Options := { allowedStartRules := ["start", "second"] }

def chainedParser : Program :=
  (chainedGrammar.parser? ⟨Passes.standard.checks, []⟩ chainedOptions).get (by decide +kernel)

theorem compiles_chainedParser :
    chainedGrammar.Compiles ⟨Passes.standard.checks, []⟩ chainedOptions chainedParser :=
  (Option.some_get _).symm

theorem removeProxies_keeps_parses_chained :
    (∃ left, chainedGrammar.Leaves Passes.standard.checks chainedOptions left) ∧
    ∃ slim, chainedGrammar.Compiles ⟨Passes.standard.checks, [.removeProxies]⟩ chainedOptions slim ∧
      (slim.parse Host.script 0 "ad" {}).outcome =
        (chainedParser.parse Host.script 0 "ad" {}).outcome ∧
      (slim.parse Host.script 0 "ad" {}).calls =
        (chainedParser.parse Host.script 0 "ad" {}).calls := by
  obtain ⟨left, notes, hl, -⟩ := compiles_inv compiles_chainedParser
  have hleaves : chainedGrammar.Leaves Passes.standard.checks chainedOptions left :=
    ⟨#[], notes, hl⟩
  obtain ⟨plain, slim, hp, hq, hkeeps⟩ := removeProxies_keeps_parses rfl hleaves
  cases Option.some.inj (compiles_chainedParser.symm.trans hp)
  have hmatched : (chainedParser.parse Host.script 0 "ad" {}).outcome.toBool = true := by
    decide +kernel
  refine ⟨⟨left, hleaves⟩, slim, hq, hkeeps Host.script 0 "ad" {} fun limit offset he => ?_⟩
  rw [he] at hmatched
  cases hmatched

end Grammar
end Peg
