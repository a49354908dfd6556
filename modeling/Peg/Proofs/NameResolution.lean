import Mathlib.Data.List.Nodup
import Peg.Proofs.Simplification

/-! Assembly and the checks of names. Assembly looks names up on its own, in case the checks were
left out. It fails if and only if one of them refuses the grammar, on the same reference or start
rule and with the same error; where it comes through, all numbers in the program stand for what they
were made for, and the table of expectations has none twice. -/
namespace Peg

theorem bind_of_error {ε α β : Type} {x : Except ε α} {f : α → Except ε β} {e : ε}
    (h : x = .error e) : (x >>= f) = .error e := by
  rw [h]
  rfl

namespace Assembler

variable {α β : Type}

theorem bind_error {x : Assembler α} {f : α → Assembler β} {e : GrammarError}
    {table : List Expectation} (h : x table = .error e) : (x >>= f) table = .error e :=
  bind_of_error (x := x table) h

/-- Assembling one thing after the other fails on the first that is defective, if defects are what
each of them fails on. -/
theorem mapM_eq_error {f : α → Assembler β} {defect? : α → Option GrammarError} {as : List α}
    (hok : ∀ a ∈ as, defect? a = none → ∀ table, ∃ b table', f a table = .ok (b, table'))
    (herror : ∀ a ∈ as, ∀ e, defect? a = some e → ∀ table, f a table = .error e)
    {e : GrammarError} (h : as.findSome? defect? = some e) (table : List Expectation) :
    as.mapM f table = .error e := by
  induction as generalizing table with
  | nil => cases h
  | cons a as ih =>
    obtain ⟨hok, hoks⟩ := List.forall_mem_cons.mp hok
    obtain ⟨herror, herrors⟩ := List.forall_mem_cons.mp herror
    rw [List.mapM_cons]
    rw [List.findSome?_cons] at h
    cases hd : defect? a with
    | some found =>
      rw [hd] at h
      cases h
      exact bind_error (herror e hd table)
    | none =>
      rw [hd] at h
      obtain ⟨b, middle, hb⟩ := hok hd table
      exact (bind_ok hb).trans (bind_error (ih hoks herrors h middle))

/-- Whatever is assembled, no expectation is twice in the table if none was before. -/
def Distinct (x : Assembler α) : Prop :=
  ∀ (table table' : List Expectation) (a : α), x table = .ok (a, table') → table.Nodup →
    table'.Nodup

theorem distinct_pure (a : α) : Distinct (pure a) := by
  intro table table' b h hn
  cases h
  exact hn

theorem Distinct.bind {x : Assembler α} {f : α → Assembler β} (hx : Distinct x)
    (hf : ∀ a, Distinct (f a)) : Distinct (x >>= f) := by
  intro table table' b h hn
  obtain ⟨a, middle, ha, hb⟩ := bind_inv h
  exact hf a middle table' b hb (hx table middle a ha hn)

theorem distinct_throw (e : GrammarError) : Distinct (throw e : Assembler α) := by
  intro table table' a h
  cases h

theorem distinct_mapM {f : α → Assembler β} {as : List α} (h : ∀ a ∈ as, Distinct (f a)) :
    Distinct (as.mapM f) := by
  induction as with
  | nil => exact distinct_pure []
  | cons a as ih =>
    obtain ⟨ha, has⟩ := List.forall_mem_cons.mp h
    rw [List.mapM_cons]
    exact ha.bind fun b => (ih has).bind fun bs => distinct_pure (b :: bs)

/-- An expectation joins the table only if it is not there yet. -/
theorem distinct_intern (e : Expectation) : Distinct (intern e) := by
  intro table table' id h hn
  unfold intern at h
  cases hi : table.idxOf? e with
  | some found =>
    rw [hi] at h
    cases h
    exact hn
  | none =>
    rw [hi] at h
    cases h
    have hnew : e ∉ table := List.idxOf?_eq_none_iff.mp hi
    rw [← List.concat_eq_append]
    exact List.Nodup.concat hnew hn

end Assembler

theorem Wrapper.distinct_assemble (wrapper : Wrapper) : wrapper.assemble.Distinct := by
  cases wrapper with
  | named name => exact (Assembler.distinct_intern _).bind fun id => Assembler.distinct_pure _
  | labeled | action | text | optional | zeroOrMore | oneOrMore | group | followedBy
  | notFollowedBy => exact Assembler.distinct_pure _

namespace Expr

variable {ruleIndex : String → Option RuleId} {forSpeed : Bool}

theorem assembleAll_eq_mapM (es : List Expr) :
    assembleAll ruleIndex forSpeed es = es.mapM (assemble ruleIndex forSpeed) := by
  induction es with
  | nil => rw [assembleAll, List.mapM_nil]
  | cons e es ih => rw [assembleAll, List.mapM_cons, ih]

open Assembler in
theorem distinct_assemble (e : Expr) : (e.assemble ruleIndex forSpeed).Distinct := by
  induction e using Expr.induct with
  | literal span lit =>
    rw [assemble]
    exact (distinct_intern _).bind fun id => distinct_pure _
  | charClass span members =>
    rw [assemble]
    exact (distinct_intern _).bind fun id => distinct_pure _
  | any span =>
    rw [assemble]
    exact (distinct_intern _).bind fun id => distinct_pure _
  | ruleRef span name =>
    rw [assemble]
    split
    · exact distinct_pure _
    · exact distinct_throw _
  | predicate span negated code =>
    rw [assemble]
    exact distinct_pure _
  | sequence span elements ih =>
    rw [assemble, assembleAll_eq_mapM]
    exact (distinct_mapM ih).bind fun nodes => distinct_pure _
  | choice span alternatives ih =>
    rw [assemble, assembleAll_eq_mapM]
    exact (distinct_mapM ih).bind fun nodes => distinct_pure _
  | wrapped span wrapper body ih =>
    rw [assemble]
    exact wrapper.distinct_assemble.bind fun operator => ih.bind fun node => distinct_pure _

/-- What is wrong with the expression itself: it is a reference to which no index belongs. -/
def unresolved? (ruleIndex : String → Option RuleId) (e : Expr) : Option GrammarError :=
  match e.asRef? with
  | some name => if (ruleIndex name).isSome then none else some ⟨e.span, .undefinedRule name⟩
  | none => none

/-- The first reference in the expression to which no index belongs. -/
def firstUnresolved? (ruleIndex : String → Option RuleId) (e : Expr) : Option GrammarError :=
  e.subterms.findSome? (unresolved? ruleIndex)

theorem findSome?_subtermsOfAll (es : List Expr) :
    (subtermsOfAll es).findSome? (unresolved? ruleIndex) =
      es.findSome? (firstUnresolved? ruleIndex) := by
  induction es with
  | nil => rfl
  | cons e es ih =>
    rw [subtermsOfAll, List.findSome?_append, ih, List.findSome?_cons, firstUnresolved?]
    cases e.subterms.findSome? (unresolved? ruleIndex) <;> rfl

/-- All references are resolved if no first one is found that is not. -/
theorem resolved_of_firstUnresolved? {e : Expr} (h : e.firstUnresolved? ruleIndex = none) :
    ∀ name ∈ e.refs, ∃ id, ruleIndex name = some id := by
  intro name hn
  obtain ⟨part, hp, hr⟩ := mem_refs.mp hn
  have hpart := List.findSome?_eq_none_iff.mp h part hp
  rw [unresolved?, hr] at hpart
  dsimp only at hpart
  split at hpart
  · exact Option.isSome_iff_exists.mp ‹_›
  · cases hpart

theorem exists_assemble_of_firstUnresolved? {e : Expr} (h : e.firstUnresolved? ruleIndex = none)
    (table : List Expectation) :
    ∃ node table', e.assemble ruleIndex forSpeed table = .ok (node, table') := by
  obtain ⟨node, table', ha, -, -⟩ := assembles_of_refs (resolved_of_firstUnresolved? h) table
  exact ⟨node, table', ha⟩

/-- Parts are assembled in their order, so that the first one fails that does so on its own. -/
theorem assembleAll_eq_error {es : List Expr} {err : GrammarError}
    (herror : ∀ e ∈ es, ∀ {err : GrammarError}, e.firstUnresolved? ruleIndex = some err →
      ∀ table, e.assemble ruleIndex forSpeed table = .error err)
    (h : (subtermsOfAll es).findSome? (unresolved? ruleIndex) = some err)
    (table : List Expectation) : assembleAll ruleIndex forSpeed es table = .error err := by
  rw [findSome?_subtermsOfAll] at h
  rw [assembleAll_eq_mapM]
  exact Assembler.mapM_eq_error (fun e _ hn => exists_assemble_of_firstUnresolved? hn)
    (fun e hm _ => herror e hm) h table

/-- Assembly fails on the first reference that cannot be resolved: it goes through the expression in
the order of its parts, and comes through on all parts before that. -/
theorem assemble_eq_error {e : Expr} {err : GrammarError}
    (h : e.firstUnresolved? ruleIndex = some err) (table : List Expectation) :
    e.assemble ruleIndex forSpeed table = .error err := by
  induction e using Expr.induct generalizing table err with
  | literal | charClass | any | predicate => cases h
  | ruleRef span name =>
    rw [assemble]
    cases hi : ruleIndex name with
    | none =>
      have hroot : (ruleRef span name).firstUnresolved? ruleIndex =
          some ⟨span, .undefinedRule name⟩ := by
        simp [firstUnresolved?, subterms, unresolved?, asRef?, hi, Expr.span]
      cases h.symm.trans hroot
      rfl
    | some id =>
      have hroot : (ruleRef span name).firstUnresolved? ruleIndex = none := by
        simp [firstUnresolved?, subterms, unresolved?, asRef?, hi]
      cases h.symm.trans hroot
  | sequence span elements ih =>
    rw [assemble]
    exact Assembler.bind_error (assembleAll_eq_error ih h table)
  | choice span alternatives ih =>
    rw [assemble]
    exact Assembler.bind_error (assembleAll_eq_error ih h table)
  | wrapped span wrapper body ih =>
    obtain ⟨operator, middle, ho, -, -⟩ := wrapper.exists_assemble table
    rw [assemble, Assembler.bind_ok ho]
    exact Assembler.bind_error (ih h middle)

end Expr

namespace Grammar

variable {grammar : Grammar} {options : Options}

theorem undefinedRule?_eq_findSome? : grammar.undefinedRule? =
    grammar.rules.findSome? fun rule => rule.expr.firstUnresolved? grammar.ruleIndex? := by
  have hroot : grammar.undefinedRule? =
      grammar.subterms.findSome? (Expr.unresolved? grammar.ruleIndex?) := by
    unfold undefinedRule?
    congr 1
    funext e
    unfold Expr.unresolved?
    cases e.asRef? with
    | none => rfl
    | some name =>
      have hsome : (grammar.rule? name).isSome = (grammar.ruleIndex? name).isSome := by
        rw [Bool.eq_iff_iff, ← exists_ruleIndex?_iff, Option.isSome_iff_exists]
      dsimp only
      rw [hsome]
  rw [hroot, subterms]
  induction grammar.rules with
  | nil => rfl
  | cons rule rules ih =>
    rw [List.flatMap_cons, List.findSome?_append, ih, List.findSome?_cons, Expr.firstUnresolved?]
    cases rule.expr.subterms.findSome? (Expr.unresolved? grammar.ruleIndex?) <;> rfl

theorem assembleRules_eq_error {e : GrammarError} (h : grammar.undefinedRule? = some e)
    (forSpeed : Bool) (table : List Expectation) :
    grammar.assembleRules forSpeed table = .error e := by
  rw [undefinedRule?_eq_findSome?] at h
  refine Assembler.mapM_eq_error (fun rule _ hn table => ?_) (fun rule _ e he table => ?_) h table
  · obtain ⟨node, table', ha⟩ := Expr.exists_assemble_of_firstUnresolved? hn table
    exact ⟨⟨rule.name, node⟩, table', Assembler.bind_ok ha⟩
  · exact Assembler.bind_error (Expr.assemble_eq_error he table)

/-- The first start rule that is not declared is reported, or that there is none. -/
theorem assembleStartRules_eq_error {names : List String} {e : GrammarError}
    (h : grammar.badStartRule? names = some e) : grammar.assembleStartRules names = .error e := by
  unfold badStartRule? at h
  split at h
  · rename_i hnone
    cases h
    rw [List.isEmpty_iff] at hnone
    rw [hnone]
    rfl
  · rename_i hsome
    obtain ⟨unknown, hfind, rfl⟩ := Option.map_eq_some_iff.mp h
    refine bind_of_error ?_
    clear h hsome
    induction names with
    | nil => cases hfind
    | cons name names ih =>
      rw [List.mapM_cons]
      rw [List.find?_cons] at hfind
      cases hi : grammar.ruleIndex? name with
      | none =>
        have hnone : (grammar.rule? name).isNone = true := by
          rw [← Option.not_isSome, Bool.not_eq_true', ← Bool.not_eq_true, ← exists_ruleIndex?_iff]
          rintro ⟨id, hid⟩
          cases hi.symm.trans hid
        rw [hnone] at hfind
        cases hfind
        exact bind_of_error rfl
      | some id =>
        rw [Option.isNone_eq_false_iff.mpr (exists_ruleIndex?_iff.mp ⟨id, hi⟩)] at hfind
        exact (bind_of_ok rfl).trans (bind_of_error (ih hfind))

/-- Assembly fails on the first reference that is not declared; if there is none, on what is wrong
with the start rules. -/
theorem assemble_eq_error_iff {e : GrammarError} : grammar.assemble options = .error e ↔
    grammar.undefinedRule? = some e ∨ grammar.undefinedRule? = none ∧
      grammar.badStartRule? (options.startRules grammar.firstRule?) = some e := by
  have hundefined {e : GrammarError} (h : grammar.undefinedRule? = some e) :
      grammar.assemble options = .error e := bind_of_error (assembleRules_eq_error h _ [])
  have hstart {e : GrammarError} (hu : grammar.undefinedRule? = none)
      (h : grammar.badStartRule? (options.startRules grammar.firstRule?) = some e) :
      grammar.assemble options = .error e := by
    have hassembles : ∀ rule ∈ grammar.rules,
        rule.expr.Assembles grammar.ruleIndex? (options.optimize == .speed) := fun rule hm =>
      Expr.assembles_of_refs (undefinedRule?_eq_none_iff.mp hu rule hm)
    obtain ⟨rules, table, hr, -, -⟩ := exists_assembleRules hassembles []
    exact (bind_of_ok hr).trans (bind_of_error (assembleStartRules_eq_error h))
  constructor
  · intro h
    cases hu : grammar.undefinedRule? with
    | some found => exact Or.inl (congrArg some (Except.error.inj ((hundefined hu).symm.trans h)))
    | none =>
      refine Or.inr ⟨rfl, ?_⟩
      cases hs : grammar.badStartRule? (options.startRules grammar.firstRule?) with
      | some found => exact congrArg some (Except.error.inj ((hstart hu hs).symm.trans h))
      | none =>
        obtain ⟨program, hp, -⟩ := exists_assemble (resolved_iff.mpr ⟨hu, hs⟩)
        cases hp.symm.trans h
  · rintro (h | ⟨hu, h⟩)
    · exact hundefined h
    · exact hstart hu h

theorem nodup_eraseDups {α : Type} [BEq α] [LawfulBEq α] (as : List α) : as.eraseDups.Nodup := by
  induction hn : as.length using Nat.strongRecOn generalizing as with
  | ind n ih =>
    cases as with
    | nil => exact List.nodup_nil
    | cons a as =>
      subst hn
      have hlength := List.length_filter_le (fun b => !b == a) as
      rw [List.eraseDups_cons]
      refine List.nodup_cons.mpr ⟨fun hm => ?_, ih _ (Nat.lt_succ_of_le hlength) _ rfl⟩
      obtain ⟨-, hne⟩ := List.mem_filter.mp (List.mem_eraseDups.mp hm)
      rw [beq_self_eq_true] at hne
      cases hne

theorem nodup_startRules (options : Options) (first : Option String) :
    (options.startRules first).Nodup := by
  unfold Options.startRules
  split
  · cases first with
    | none => exact List.nodup_nil
    | some name => exact List.nodup_singleton name
  · exact nodup_eraseDups _

/-- The table of a program is that of the rules, with the end of the input. -/
theorem nodup_expectations {program : Program} (h : grammar.assemble options = .ok program) :
    program.expectations.toList.Nodup := by
  obtain ⟨⟨rules, table⟩, hr, h⟩ := bind_eq_ok h
  obtain ⟨startRules, -, h⟩ := bind_eq_ok h
  obtain ⟨⟨endExpectation, last⟩, he, h⟩ := bind_eq_ok h
  cases h
  have hrules : (grammar.assembleRules (options.optimize == .speed)).Distinct :=
    Assembler.distinct_mapM fun rule _ =>
      rule.expr.distinct_assemble.bind fun node => Assembler.distinct_pure _
  have htable : table.Nodup := hrules [] table rules hr List.nodup_nil
  exact Assembler.distinct_intern .endOfInput table last endExpectation he htable

/-- Assembly fails if and only if the check of references refuses the grammar, or the check of start
rules does where that lets it through, and then with the error of the check. Where it comes through,
references have become the indices of the first rules of their names, the numbers of expectations
stand for the terminals and display names that they were made for, no expectation is twice in the
table, and there are start rules, all of them rules of the program and of different names. -/
theorem assembly_agrees_with_checks (grammar : Grammar) (options : Options) :
    (∀ e, grammar.assemble options = .error e ↔
      Pass.undefinedRules.outcome options grammar = .error e ∨
        Pass.undefinedRules.outcome options grammar = .ok grammar ∧
          Pass.startRules.outcome options grammar = .error e) ∧
    ∀ program, grammar.assemble options = .ok program →
      grammar.Denotes options program ∧ program.expectations.toList.Nodup ∧
        program.startRules ≠ [] ∧ (∀ id ∈ program.startRules, id < program.rules.size) ∧
        program.startRuleNames.Nodup := by
  have hreferences : Pass.undefinedRules.outcome options grammar =
      grammar.undefinedRule?.elim (.ok grammar) .error := Compiler.outcome_refuse _ _ _
  have hstart : Pass.startRules.outcome options grammar =
      (grammar.badStartRule? (options.startRules grammar.firstRule?)).elim (.ok grammar) .error :=
    Compiler.outcome_refuse _ _ _
  have herror (found : Option GrammarError) (e : GrammarError) :
      found.elim (.ok grammar) Except.error = .error e ↔ found = some e := by
    cases found <;> simp
  have hok (found : Option GrammarError) :
      found.elim (.ok grammar) Except.error = .ok grammar ↔ found = none := by
    cases found <;> simp
  refine ⟨fun e => ?_, fun program h => ?_⟩
  · rw [hreferences, hstart, herror, herror, hok]
    exact assemble_eq_error_iff
  · have hdenotes := denotes_of_assemble h
    have hbecomes := becomes_of_assemble h
    refine ⟨hdenotes, nodup_expectations h, fun hnone => ?_, fun id hm => ?_, ?_⟩
    · have hnames := hdenotes.startRules
      rw [hnone, List.forall₂_nil_right_iff] at hnames
      exact (resolved_of_assemble h).startable hnames
    · obtain ⟨name, hi⟩ := hbecomes.startRules id hm
      obtain ⟨found, hf, -⟩ := hbecomes.exists_rule hi
      exact (Array.getElem?_eq_some_iff.mp hf).1
    · rw [hdenotes.startRuleNames_eq hbecomes]
      exact nodup_startRules options _

/-- Two rules of one name, and a terminal that stands in three places. -/
def doubledGrammar : Grammar where
  initializer := none
  rules := [
    ⟨"start", .sequence .none [.ruleRef .none "word", .literal .none ⟨"a", false⟩], .none⟩,
    ⟨"word", .literal .none ⟨"a", false⟩, .none⟩,
    ⟨"word", .wrapped .none (.named "a word") (.literal .none ⟨"a", false⟩), .none⟩]
  span := .none

theorem assembly_agrees_with_checks_doubled :
    doubledGrammar.assemble { allowedStartRules := ["missing"] } =
      .error ⟨.none, .unknownStartRule "missing"⟩ ∧
    ∃ program, doubledGrammar.assemble {} = .ok program ∧ doubledGrammar.Denotes {} program ∧
      program.expectations.toList.Nodup := by
  obtain ⟨hfails, -⟩ :=
    assembly_agrees_with_checks doubledGrammar { allowedStartRules := ["missing"] }
  obtain ⟨-, hcomes⟩ := assembly_agrees_with_checks doubledGrammar {}
  refine ⟨(hfails _).mpr (Or.inr ⟨rfl, rfl⟩), ?_⟩
  obtain ⟨program, hp⟩ : ∃ program, doubledGrammar.assemble {} = .ok program := ⟨_, rfl⟩
  obtain ⟨hdenotes, hnodup, -⟩ := hcomes program hp
  exact ⟨program, hp, hdenotes, hnodup⟩

end Grammar
end Peg
