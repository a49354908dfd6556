import Peg.Match.Script
import Peg.Proofs.Simplification
import Peg.Proofs.Written

/-! The groups that printing adds. They change nothing that a parse shows unless they cut off
labels: those of a sequence that is an element of a sequence itself, which no text can write without
a group. -/
namespace Peg

variable {σ α ε : Type}

/-- Members of two lists with the same images go together. -/
theorem forall₂_of_map_eq {α β : Type} {R : α → α → Prop} {f : α → β} {as as' : List α}
    (h : as'.map f = as.map f) (hr : ∀ a ∈ as, ∀ a', f a' = f a → R a a') :
    List.Forall₂ R as as' := by
  induction as generalizing as' with
  | nil =>
    rw [List.map_nil, List.map_eq_nil_iff] at h
    rw [h]
    exact .nil
  | cons a as ih =>
    obtain ⟨a', as', rfl, ha, has⟩ := List.map_eq_cons_iff.mp h
    exact .cons (hr a List.mem_cons_self a' ha)
      (ih has fun a hm => hr a (List.mem_cons_of_mem _ hm))

namespace Expr

/-- Expressions that differ in spans only do the same. -/
theorem mimics_of_unlocated {e e' : Expr} (h : e'.unlocated = e.unlocated) : e.Mimics Eq e' := by
  induction e using Expr.induct generalizing e' with
  | literal span lit =>
    obtain ⟨span', rfl⟩ : ∃ span', e' = .literal span' lit := by
      cases e' <;> simp at h ⊢
      exact h
    exact .literal span span' lit
  | charClass span members =>
    obtain ⟨span', rfl⟩ : ∃ span', e' = .charClass span' members := by
      cases e' <;> simp at h ⊢
      exact h
    exact .charClass span span' members
  | any span =>
    obtain ⟨span', rfl⟩ : ∃ span', e' = .any span' := by
      cases e' <;> simp at h ⊢
    exact .any span span'
  | ruleRef span name =>
    obtain ⟨span', rfl⟩ : ∃ span', e' = .ruleRef span' name := by
      cases e' <;> simp at h ⊢
      exact h
    exact .ruleRef span span' name name rfl
  | predicate span negated code =>
    obtain ⟨span', rfl⟩ : ∃ span', e' = .predicate span' negated code := by
      cases e' <;> simp at h ⊢
      exact h
    exact .predicate span span' negated code
  | sequence span es ih =>
    obtain ⟨span', es', rfl, hes⟩ : ∃ span' es', e' = .sequence span' es' ∧
        es'.map unlocated = es.map unlocated := by
      cases e' <;> simp at h ⊢
      exact h
    exact .sequence (forall₂_of_map_eq hes fun e he e' h => ih e he h) span span'
  | choice span es ih =>
    obtain ⟨span', es', rfl, hes⟩ : ∃ span' es', e' = .choice span' es' ∧
        es'.map unlocated = es.map unlocated := by
      cases e' <;> simp at h ⊢
      exact h
    exact .choice (forall₂_of_map_eq hes fun e he e' h => ih e he h) span span'
  | wrapped span wrapper body ih =>
    obtain ⟨span', body', rfl, hb⟩ : ∃ span' body', e' = .wrapped span' wrapper body' ∧
        body'.unlocated = body.unlocated := by
      cases e' <;> simp at h ⊢
      exact h
    exact .wrapped span span' wrapper body body' (ih hb)

/-- Whether a group that printing adds cuts off labels: it does around an element of a sequence that
is a sequence itself and leaves labels behind. -/
def cutsLabels : Expr → Bool
  | sequence _ es => es.any fun e => e.level == .sequence && e.bindsLabels
  | _ => false

/-- Of what is too loose for an element, sequences only leave labels behind. -/
theorem bindsLabels_of_loose {e : Expr} (hl : e.level.rank < Level.labeled.rank)
    (hs : e.level ≠ .sequence) : e.bindsLabels = false := by
  cases e with
  | wrapped span wrapper body =>
    cases wrapper with
    | labeled label => exact absurd hl (Nat.lt_irrefl _)
    | named | action | text | optional | zeroOrMore | oneOrMore | group | followedBy
    | notFollowedBy => rfl
  | sequence => exact absurd rfl hs
  | literal | charClass | any | ruleRef | predicate | choice => rfl

/-- Groups bind no labels. -/
theorem bindsLabels_enclose {e : Expr} (least level : Level) (h : e.bindsLabels = false) :
    (least.enclose level e).bindsLabels = false := by
  unfold Level.enclose
  split
  · rfl
  · exact h

/-- With more groups no more labels are left behind. -/
theorem bindsLabels_regroup {e : Expr} (h : e.bindsLabels = false) :
    e.regroup.bindsLabels = false := by
  induction e using Expr.induct with
  | sequence span es ih =>
    rw [bindsLabels, ← Bool.not_eq_true, anyBindsLabels_iff] at h
    rw [regroup, bindsLabels, ← Bool.not_eq_true, anyBindsLabels_iff, regroupOperands_eq_map]
    rintro ⟨e', he', hb⟩
    obtain ⟨e, he, rfl⟩ := List.mem_map.mp he'
    have hfalse : e.bindsLabels = false := by
      rw [← Bool.not_eq_true]
      exact fun hb => h ⟨e, he, hb⟩
    rw [bindsLabels_enclose _ _ (ih e he hfalse)] at hb
    cases hb
  | wrapped span wrapper body ih =>
    rw [regroup]
    cases wrapper with
    | labeled label => cases h
    | named | action | text | optional | zeroOrMore | oneOrMore | group | followedBy
    | notFollowedBy => rfl
  | choice => rw [regroup]; rfl
  | literal | charClass | any | ruleRef | predicate => simpa using h

/-- An operand in a group does the same unless the group cuts off labels. -/
theorem mimics_enclose {e : Expr} {least : Level} (h : e.Mimics Eq e.regroup)
    (hb : e.level.rank < least.rank → e.bindsLabels = false) :
    e.Mimics Eq (least.enclose e.level e.regroup) := by
  unfold Level.enclose
  by_cases hl : e.level.rank < least.rank
  · rw [if_pos hl]
    exact .group .none e e.regroup (bindsLabels_regroup (hb hl)) h
  · rw [if_neg hl]
    exact h

/-- But for actions, what is inside a wrapper may stand in a group in any case. -/
theorem mimics_enclose_inside {e : Expr} {least : Level} (span : Span) {wrapper : Wrapper}
    (ha : ∀ code, wrapper ≠ .action code) (h : e.Mimics Eq e.regroup) :
    (wrapped span wrapper e).Mimics Eq
      (wrapped span wrapper (least.enclose e.level e.regroup)) := by
  have hplain := Mimics.wrapped span span wrapper e e.regroup h
  unfold Level.enclose
  by_cases hl : e.level.rank < least.rank
  · rw [if_pos hl]
    exact .group_inside span .none wrapper _ e.regroup ha hplain
  · rw [if_neg hl]
    exact hplain

/-- An expression does the same with the groups that printing adds if they cut off no labels. -/
theorem mimics_regroup {e : Expr} (h : ∀ part ∈ e.subterms, part.cutsLabels = false) :
    e.Mimics Eq e.regroup := by
  induction e using Expr.induct with
  | literal span lit => rw [regroup_literal]; exact .literal span span lit
  | charClass span members => rw [regroup_charClass]; exact .charClass span span members
  | any span => rw [regroup_any]; exact .any span span
  | ruleRef span name => rw [regroup_ruleRef]; exact .ruleRef span span name name rfl
  | predicate span negated code =>
    rw [regroup_predicate]
    exact .predicate span span negated code
  | sequence span es ih =>
    rw [subterms, List.forall_mem_cons, forall_mem_subtermsOfAll] at h
    obtain ⟨hcuts, hparts⟩ := h
    rw [cutsLabels, List.any_eq_false] at hcuts
    rw [regroup, regroupOperands_eq_map]
    refine .sequence (forall₂_map fun e he => ?_) span span
    refine mimics_enclose (ih e he (hparts e he)) fun hl => ?_
    by_cases hs : e.level = .sequence
    · have hcut := hcuts e he
      rw [hs, beq_self_eq_true, Bool.true_and, Bool.not_eq_true] at hcut
      exact hcut
    · exact bindsLabels_of_loose hl hs
  | choice span es ih =>
    rw [subterms, List.forall_mem_cons, forall_mem_subtermsOfAll] at h
    rw [regroup, regroupOperands_eq_map]
    refine .choice (forall₂_map fun e he => ?_) span span
    refine mimics_enclose (ih e he (h.2 e he)) fun hl => ?_
    refine bindsLabels_of_loose (hl.trans (by decide)) fun hs => ?_
    rw [hs] at hl
    exact absurd hl (by decide)
  | wrapped span wrapper body ih =>
    rw [subterms, List.forall_mem_cons] at h
    have hbody := ih h.2
    rw [regroup]
    by_cases ha : ∃ code, wrapper = .action code
    · obtain ⟨code, rfl⟩ := ha
      refine .wrapped span span (.action code) body _ (mimics_enclose hbody fun hl => ?_)
      have hlabeled : Level.sequence.rank < Level.labeled.rank := by decide
      refine bindsLabels_of_loose (hl.trans hlabeled) fun hs => ?_
      rw [hs] at hl
      exact absurd hl (Nat.lt_irrefl _)
    · exact mimics_enclose_inside span (fun code hw => ha ⟨code, hw⟩) hbody

end Expr

namespace Grammar

variable {g g' : Grammar} {options : Options}

def cutsLabels (g : Grammar) : Bool := g.subterms.any Expr.cutsLabels

/-- Grammars that differ in spans only do the same. -/
theorem mimics_of_unlocated (h : g'.unlocated = g.unlocated) : g.Mimics Eq g' where
  rules := by
    have hrules : g'.rules.map Rule.unlocated = g.rules.map Rule.unlocated :=
      congrArg Grammar.rules h
    refine forall₂_of_map_eq hrules fun rule _ rule' he => ?_
    have hname : rule'.unlocated.name = rule.unlocated.name := congrArg Rule.name he
    have hexpr : rule'.unlocated.expr = rule.unlocated.expr := congrArg Rule.expr he
    exact ⟨hname, Expr.mimics_of_unlocated hexpr⟩
  initializer := by
    have hi := congrArg (fun g : Grammar => g.initializer.map (·.code)) h
    unfold unlocated at hi
    rwa [Option.map_map, Option.map_map] at hi

/-- A grammar does the same with the groups that printing adds if they cut off no labels. -/
theorem mimics_regroup (h : g.cutsLabels = false) : g.Mimics Eq g.regroup := by
  refine .of_map rfl rfl (fun _ => rfl) fun rule hm => Expr.mimics_regroup fun part hp => ?_
  have hcuts := List.any_eq_false.mp h part (List.mem_flatMap.mpr ⟨rule, hm, hp⟩)
  rwa [Bool.not_eq_true] at hcuts

theorem mirrors_of_unlocated (options : Options) (h : g'.unlocated = g.unlocated) :
    g.Mirrors options g' :=
  (mimics_of_unlocated h).mirrors options

theorem mirrors_regroup (options : Options) (h : g.cutsLabels = false) :
    g.Mirrors options g.regroup :=
  (mimics_regroup h).mirrors options

theorem Resolved.of_unlocated (h : g.Resolved options) (hu : g'.unlocated = g.unlocated) :
    g'.Resolved options :=
  (mimics_of_unlocated hu).resolved_eq h

theorem Resolved.regroup (h : g.Resolved options) (hc : g.cutsLabels = false) :
    g.regroup.Resolved options :=
  (mimics_regroup hc).resolved_eq h

/-- Printed and read again, a grammar becomes a parser that parses every input to the same, with the
same events and calls, unless groups cut off labels. -/
theorem printing_keeps_parses (ho : options.output = .parser) (hw : g.Writable)
    (hu : g.undefinedRule? = none)
    (hs : g.badStartRule? (options.startRules g.firstRule?) = none) (hc : g.cutsLabels = false) :
    ∃ text g', g.render = .ok text ∧ parse text = .ok g' ∧
      ∃ tree printed : Program, g.Compiles ⟨[], []⟩ options tree ∧
        g'.Compiles ⟨[], []⟩ options printed ∧
        ∀ {σ α ε : Type} (host : Host σ α ε) (memory : σ) (input : String) (how : ParseOptions),
          printed.parse host memory input how = tree.parse host memory input how := by
  obtain ⟨g', hparse, hg'⟩ := hw.exists_parse
  have hr : g.Resolved options := resolved_iff.mpr ⟨hu, hs⟩
  have hr' : g.regroup.Resolved options := hr.regroup hc
  obtain ⟨tree, ht, hd⟩ := exists_assemble hr
  obtain ⟨grouped, -, hd'⟩ := exists_assemble hr'
  obtain ⟨printed, hp, hd''⟩ := exists_assemble (hr'.of_unlocated hg')
  refine ⟨g.text, g', render_eq_ok hw.bodies, hparse, tree, printed,
    compiles_of_leaves ho rfl ht, compiles_of_leaves ho rfl hp, ?_⟩
  intro σ α ε host memory input how
  -- By way of the grouped grammar: reading it back changes only places, and grouping changes no
  -- parse.
  calc printed.parse host memory input how
    _ = grouped.parse host memory input how :=
        (mirrors_of_unlocated options hg').parse_eq hd' hd'' host memory input how
    _ = tree.parse host memory input how :=
        (mirrors_regroup options hc).parse_eq hd hd' host memory input how

theorem printing_keeps_parses_loose : looseGrammar.Writable ∧
    looseGrammar.undefinedRule? = none ∧ looseGrammar.badStartRule? ["start"] = none ∧
    looseGrammar.cutsLabels = false ∧
    ∃ text g', looseGrammar.render = .ok text ∧ parse text = .ok g' ∧
      ∃ tree printed : Program, looseGrammar.Compiles ⟨[], []⟩ {} tree ∧
        g'.Compiles ⟨[], []⟩ {} printed ∧
        ∀ {σ α ε : Type} (host : Host σ α ε) (memory : σ) (input : String) (how : ParseOptions),
          printed.parse host memory input how = tree.parse host memory input how :=
  ⟨writable_looseGrammar, by decide, by decide, by decide,
    printing_keeps_parses rfl writable_looseGrammar (by decide) (by decide) (by decide)⟩

/-- A sequence that leaves a label behind, which the predicate behind it looks for. -/
def nestedGrammar : Grammar where
  initializer := none
  rules := [⟨"start", .sequence .none [
    .sequence .none [.wrapped .none (.labeled "x") (.literal .none ⟨"a", false⟩),
      .literal .none ⟨"b", false⟩],
    .predicate .none false "x"], .none⟩]
  span := .none

example : nestedGrammar.text = "start = (x:\"a\" \"b\") &\x7b x \x7d\n" := by decide +kernel

/-- The group that printing adds may cut off a label: the tree matches, the text read again does
not. -/
theorem printing_changes_parses :
    ¬ ∀ (g g' : Grammar) (text input : String) (tree printed : Program), g.Writable →
      g.undefinedRule? = none → g.render = .ok text → parse text = .ok g' →
      g.Compiles ⟨[], []⟩ {} tree → g'.Compiles ⟨[], []⟩ {} printed →
      (printed.parse Host.script 0 input {}).outcome =
        (tree.parse Host.script 0 input {}).outcome := by
  intro h
  have hw : nestedGrammar.Writable := {
    nonempty := List.cons_ne_nil _ _
    names := by decide +kernel
    bodies := by decide +kernel
    initializer := nofun }
  obtain ⟨g', hparse, hg'⟩ := hw.exists_parse
  have hr : nestedGrammar.Resolved {} := resolved_iff.mpr ⟨by decide, by decide⟩
  have hr' : nestedGrammar.regroup.Resolved {} := resolved_iff.mpr ⟨by decide, by decide⟩
  obtain ⟨tree, ht, -⟩ := exists_assemble hr
  obtain ⟨grouped, hg, hd'⟩ := exists_assemble hr'
  obtain ⟨printed, hp, hd''⟩ := exists_assemble (hr'.of_unlocated hg')
  have hsame :=
    h nestedGrammar g' _ "ab" tree printed hw (by decide) (render_eq_ok hw.bodies) hparse
    (compiles_of_leaves rfl rfl ht) (compiles_of_leaves rfl rfl hp)
  rw [(mirrors_of_unlocated {} hg').parse_eq hd' hd'' Host.script 0 "ab" {}] at hsame
  have hmatches : ((nestedGrammar.assemble {}).toOption.map fun program =>
      (program.parse Host.script 0 "ab" {}).outcome.toBool) = some true := by decide +kernel
  have hfails : ((nestedGrammar.regroup.assemble {}).toOption.map fun program =>
      (program.parse Host.script 0 "ab" {}).outcome.toBool) = some false := by decide +kernel
  rw [ht] at hmatches
  rw [hg] at hfails
  have htree : (tree.parse Host.script 0 "ab" {}).outcome.toBool = true := Option.some.inj hmatches
  have hgrouped : (grouped.parse Host.script 0 "ab" {}).outcome.toBool = false :=
    Option.some.inj hfails
  rw [hsame, htree] at hgrouped
  cases hgrouped

end Grammar

end Peg
