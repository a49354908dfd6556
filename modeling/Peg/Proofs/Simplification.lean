import Peg.Proofs.Mirroring

/-! Simplification changes nothing that a parse shows. What it takes away are groups that keep no
labels inside, and display names that are not reported; and the alternatives of a choice that is an
alternative itself are tried in the same order when they are written out. -/
namespace Peg

variable {σ α ε : Type}

namespace Expr

theorem mem_refs_sequence_cons {span : Span} {e : Expr} {es : List Expr} {name : String} :
    name ∈ (sequence span (e :: es)).refs ↔ name ∈ e.refs ∨ name ∈ (sequence span es).refs := by
  simp only [mem_refs_sequence, List.mem_cons, exists_eq_or_imp]

theorem mem_refs_choice_append {span span' : Span} {es es' : List Expr} {name : String} :
    name ∈ (choice span (es ++ es')).refs ↔
      name ∈ (choice span' es).refs ∨ name ∈ (choice span es').refs := by
  simp only [mem_refs_choice, List.mem_append, or_and_right, exists_or]

theorem mem_refs_choice_cons {span : Span} {e : Expr} {es : List Expr} {name : String} :
    name ∈ (choice span (e :: es)).refs ↔ name ∈ e.refs ∨ name ∈ (choice span es).refs := by
  simp only [mem_refs_choice, List.mem_cons, exists_eq_or_imp]

/-- What expressions refer to that do the same is related. -/
theorem Mimics.refs {Calls : String → String → Prop} {e e' : Expr} (h : e.Mimics Calls e') :
    ∀ name' ∈ e'.refs, ∃ name ∈ e.refs, Calls name name' := by
  have hboth {names first rest : List String} {name' : String}
      (hn : ∀ name, name ∈ names ↔ name ∈ first ∨ name ∈ rest)
      (h : (∃ name ∈ first, Calls name name') ∨ ∃ name ∈ rest, Calls name name') :
      ∃ name ∈ names, Calls name name' := by
    rcases h with ⟨name, hm, hc⟩ | ⟨name, hm, hc⟩
    · exact ⟨name, (hn name).mpr (Or.inl hm), hc⟩
    · exact ⟨name, (hn name).mpr (Or.inr hm), hc⟩
  induction h with
  | literal | charClass | any | predicate => nofun
  | sequence_nil span span' | choice_nil span span' => nofun
  | ruleRef span span' name name' hc =>
    intro name'' hn
    rw [refs_ruleRef, List.mem_singleton] at hn
    exact ⟨name, by rw [refs_ruleRef]; exact List.mem_singleton_self name, hn ▸ hc⟩
  | sequence_cons span span' e e' es es' _ _ ihe ihes =>
    intro name' hn
    exact hboth (fun _ => mem_refs_sequence_cons)
      ((mem_refs_sequence_cons.mp hn).imp (ihe name') (ihes name'))
  | choice_cons span span' e e' es es' _ _ ihe ihes =>
    intro name' hn
    exact hboth (fun _ => mem_refs_choice_cons)
      ((mem_refs_choice_cons.mp hn).imp (ihe name') (ihes name'))
  | choice_splice span span' inner e es alternatives es' _ _ ihe ihes =>
    intro name' hn
    exact hboth (fun _ => mem_refs_choice_cons)
      ((mem_refs_choice_append.mp hn).imp (ihe name') (ihes name'))
  | wrapped span span' wrapper e e' _ ih => rwa [refs_wrapped, refs_wrapped]
  | ungroup span e e' _ _ ih => rwa [refs_wrapped]
  | group span' e e' _ _ ih => rwa [refs_wrapped]
  | ungroup_inside span inner wrapper e e' _ _ ih =>
    rw [refs_wrapped] at ih
    rwa [refs_wrapped, refs_wrapped]
  | group_inside span' inner wrapper e e' _ _ ih =>
    rw [refs_wrapped] at ih
    rwa [refs_wrapped, refs_wrapped]
  | unname_inside span inner name name' e e' _ ih =>
    rw [refs_wrapped] at ih
    rwa [refs_wrapped, refs_wrapped]

def unnamed (e : Expr) : Expr := (e.asNamed?.map (·.2)).getD e

/-- Alternatives that are choices may be written out. -/
theorem mimics_flattened {f : Expr → Expr} {span : Span} {es : List Expr}
    (h : ∀ e ∈ es, e.Mimics Eq (e.rebuild f)) :
    (choice span es).Mimics Eq (choice span ((rebuildAll f es).flatMap flattenChoice)) := by
  induction es with
  | nil => rw [rebuildAll]; exact .choice_nil span span
  | cons e es ih =>
    have hfirst := h e List.mem_cons_self
    have hrest := ih fun e hm => h e (List.mem_cons_of_mem _ hm)
    rw [rebuildAll, List.flatMap_cons]
    cases hf : e.rebuild f with
    | choice inner alternatives =>
      rw [hf] at hfirst
      exact .choice_splice span span inner e es alternatives _ hfirst hrest
    | literal | charClass | any | ruleRef | predicate | sequence | wrapped =>
      rw [hf] at hfirst
      exact .choice_cons span span e _ es _ hfirst hrest

/-- Simplified expressions do the same, and under a display name even less of them does. -/
theorem mimics_simplified (flattenChoices : Bool) (e : Expr) :
    e.Mimics Eq (e.rebuild (simplifyRoot flattenChoices)) ∧ ∀ span name,
      (wrapped span (.named name) e).Mimics Eq
        (wrapped span (.named name) (e.rebuild (simplifyRoot flattenChoices)).unnamed) := by
  have hplain {e e' : Expr} (h : e.Mimics Eq e') (hn : e'.unnamed = e') : e.Mimics Eq e' ∧
      ∀ span name, (wrapped span (.named name) e).Mimics Eq
        (wrapped span (.named name) e'.unnamed) :=
    ⟨h, fun span name => by rw [hn]; exact .wrapped span span (.named name) e e' h⟩
  induction e using Expr.induct with
  | literal span lit => exact hplain (.literal span span lit) rfl
  | charClass span members => exact hplain (.charClass span span members) rfl
  | any span => exact hplain (.any span span) rfl
  | ruleRef span name => exact hplain (.ruleRef span span name name rfl) rfl
  | predicate span negated code => exact hplain (.predicate span span negated code) rfl
  | sequence span elements ih =>
    rw [rebuild, rebuildAll_eq_map]
    exact hplain (.sequence (forall₂_map fun e hm => (ih e hm).1) span span) rfl
  | choice span alternatives ih =>
    rw [rebuild, simplifyRoot]
    refine hplain ?_ rfl
    cases flattenChoices with
    | true => exact mimics_flattened fun e hm => (ih e hm).1
    | false =>
      rw [rebuildAll_eq_map]
      exact .choice (forall₂_map fun e hm => (ih e hm).1) span span
  | wrapped span wrapper body ih =>
    obtain ⟨hbody, hnamed⟩ := ih
    rw [rebuild]
    cases wrapper with
    | group =>
      rw [simplifyRoot]
      cases hl : (body.rebuild (simplifyRoot flattenChoices)).leaksLabels with
      | true => exact hplain (.wrapped span span .group body _ hbody) rfl
      | false =>
        exact ⟨.ungroup span body _ (bindsLabels_of_leaksLabels hl) hbody, fun outer name =>
          .ungroup_inside outer span (.named name) body _ (fun _ ha => by cases ha)
            (hnamed outer name)⟩
    | named name =>
      exact ⟨hnamed span name, fun outer name' =>
        .unname_inside outer span name' name body _ (hnamed outer name')⟩
    | labeled | action | text | optional | zeroOrMore | oneOrMore | followedBy | notFollowedBy =>
      exact hplain (.wrapped span span _ body _ hbody) rfl

theorem mimics_simplify (flattenChoices : Bool) (e : Expr) :
    e.Mimics Eq (e.rebuild (simplifyRoot flattenChoices)) :=
  (mimics_simplified flattenChoices e).1

end Expr

namespace Grammar

variable {grammar : Grammar}

namespace Mimics

variable {Calls : String → String → Prop} {grammar' : Grammar}

/-- Names stay resolved if what may be called instead of a rule is declared. -/
theorem resolved {options : Options} (h : grammar.Mimics Calls grammar')
    (hr : grammar.Resolved options)
    (hdeclared : ∀ name name' id, Calls name name' → grammar.ruleIndex? name = some id →
      ∃ id', grammar.ruleIndex? name' = some id') : grammar'.Resolved options := by
  have hindex := ruleIndex?_of_names h.names
  have hfirst := firstRule?_of_names h.names
  refine ⟨fun rule' hm name' hn => ?_, ?_, ?_⟩
  · obtain ⟨rule, hm, -, hmimics⟩ := h.exists_rule hm
    obtain ⟨name, hn, hc⟩ := hmimics.refs name' hn
    obtain ⟨id, hi⟩ := hr.refs rule hm name hn
    rw [hindex]
    exact hdeclared name name' id hc hi
  · rw [hindex, hfirst]
    exact hr.startRules
  · rw [hfirst]
    exact hr.startable

theorem resolved_eq {options : Options} (h : grammar.Mimics Eq grammar')
    (hr : grammar.Resolved options) : grammar'.Resolved options := by
  refine h.resolved hr ?_
  rintro name _ id rfl hi
  exact ⟨id, hi⟩

end Mimics

theorem mimics_simplify (flattenChoices : Bool) (grammar : Grammar) :
    grammar.Mimics Eq (grammar.simplify flattenChoices) :=
  .of_map rfl rfl (fun _ => rfl) fun rule _ => rule.expr.mimics_simplify flattenChoices

theorem mirrors_simplify (options : Options) (flattenChoices : Bool) (grammar : Grammar) :
    grammar.Mirrors options (grammar.simplify flattenChoices) :=
  (mimics_simplify flattenChoices grammar).mirrors options

theorem Resolved.simplify {options : Options} (h : grammar.Resolved options)
    (flattenChoices : Bool) : (grammar.simplify flattenChoices).Resolved options :=
  (mimics_simplify flattenChoices grammar).resolved_eq h

/-- A name is resolved if there is a rule that it stands for. -/
theorem exists_ruleIndex?_iff {name : String} :
    (∃ id, grammar.ruleIndex? name = some id) ↔ (grammar.rule? name).isSome = true := by
  rw [Option.isSome_iff_exists]
  constructor
  · rintro ⟨id, hi⟩
    obtain ⟨rule, -, -, hr⟩ := rule?_of_ruleIndex? hi
    exact ⟨rule, hr⟩
  · rintro ⟨rule, hr⟩
    obtain ⟨id, hi, -⟩ := ruleIndex?_of_rule? hr
    exact ⟨id, hi⟩

theorem undefinedRule?_eq_none_iff : grammar.undefinedRule? = none ↔
    ∀ rule ∈ grammar.rules, ∀ name ∈ rule.expr.refs, ∃ id, grammar.ruleIndex? name = some id := by
  unfold undefinedRule? subterms
  rw [List.findSome?_eq_none_iff]
  constructor
  · intro h rule hr name hn
    obtain ⟨part, hp, he⟩ := Expr.mem_refs.mp hn
    have hpart := h part (List.mem_flatMap.mpr ⟨rule, hr, hp⟩)
    rw [he] at hpart
    dsimp only at hpart
    split at hpart
    · rename_i hs
      exact exists_ruleIndex?_iff.mpr hs
    · cases hpart
  · intro h part hp
    obtain ⟨rule, hr, hp⟩ := List.mem_flatMap.mp hp
    cases he : part.asRef? with
    | none => rfl
    | some name =>
      dsimp only
      rw [if_pos (exists_ruleIndex?_iff.mp (h rule hr name (Expr.mem_refs.mpr ⟨part, hp, he⟩)))]

theorem badStartRule?_eq_none_iff {names : List String} : grammar.badStartRule? names = none ↔
    names ≠ [] ∧ ∀ name ∈ names, ∃ id, grammar.ruleIndex? name = some id := by
  unfold badStartRule?
  cases names with
  | nil => simp
  | cons name names =>
    rw [List.isEmpty_cons, if_neg Bool.false_ne_true, Option.map_eq_none_iff,
      List.find?_eq_none]
    constructor
    · intro h
      refine ⟨nofun, fun name hn => exists_ruleIndex?_iff.mpr ?_⟩
      have hn' := h name hn
      rwa [Bool.not_eq_true, ← Option.not_isSome, Bool.not_eq_false'] at hn'
    · rintro ⟨-, h⟩ name hn
      have hn' := exists_ruleIndex?_iff.mp (h name hn)
      rw [Bool.not_eq_true, ← Option.not_isSome, hn']
      rfl

/-- The checks of names see to it that all names are declared. -/
theorem resolved_iff {options : Options} : grammar.Resolved options ↔
    grammar.undefinedRule? = none ∧
      grammar.badStartRule? (options.startRules grammar.firstRule?) = none := by
  rw [undefinedRule?_eq_none_iff, badStartRule?_eq_none_iff]
  exact ⟨fun h => ⟨h.refs, h.startable, h.startRules⟩, fun h => ⟨h.1, h.2.2, h.2.1⟩⟩

/-- Simplified or not, a grammar becomes a parser that parses every input to the same, with the same
events and calls. -/
theorem simplify_keeps_parses {options : Options} (ho : options.output = .parser)
    (hu : grammar.undefinedRule? = none)
    (hs : grammar.badStartRule? (options.startRules grammar.firstRule?) = none) :
    ∃ plain simple : Program, grammar.Compiles ⟨[], []⟩ options plain ∧
      grammar.Compiles ⟨[], [.simplify]⟩ options simple ∧
      ∀ {σ α ε : Type} (host : Host σ α ε) (memory : σ) (input : String) (how : ParseOptions),
        simple.parse host memory input how = plain.parse host memory input how := by
  have hr : grammar.Resolved options := resolved_iff.mpr ⟨hu, hs⟩
  obtain ⟨plain, hp, hd⟩ := exists_assemble hr
  obtain ⟨simple, hq, hd'⟩ := exists_assemble (hr.simplify (options.optimize == .speed))
  refine ⟨plain, simple, compiles_of_leaves ho rfl hp, compiles_of_leaves ho rfl hq, ?_⟩
  intro σ α ε host memory input how
  exact (mirrors_simplify options _ grammar).parse_eq hd hd' host memory input how

/-- A group, a choice in a choice, and a display name in another one. -/
def bundledGrammar : Grammar where
  initializer := none
  rules := [
    ⟨"start", .choice .none [
      .wrapped .none .group (.literal .none ⟨"a", false⟩),
      .wrapped .none .group (.choice .none [.literal .none ⟨"b", false⟩,
        .ruleRef .none "rest"])], .none⟩,
    ⟨"rest", .wrapped .none (.named "outside") (.wrapped .none (.named "inside")
      (.literal .none ⟨"c", false⟩)), .none⟩]
  span := .none

theorem simplify_keeps_parses_bundled : bundledGrammar.undefinedRule? = none ∧
    bundledGrammar.badStartRule? ["start"] = none ∧
    ∃ plain simple : Program, bundledGrammar.Compiles ⟨[], []⟩ {} plain ∧
      bundledGrammar.Compiles ⟨[], [.simplify]⟩ {} simple ∧
      ∀ {σ α ε : Type} (host : Host σ α ε) (memory : σ) (input : String) (how : ParseOptions),
        simple.parse host memory input how = plain.parse host memory input how :=
  ⟨by decide, by decide, simplify_keeps_parses rfl (by decide) (by decide)⟩

end Grammar
end Peg
