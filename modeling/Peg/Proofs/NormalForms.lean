import Peg.Proofs.Compilation
import Peg.Proofs.Subterms

/-! Simplification comes to its end in one run. A node is simplified when its parts are simple
already, and what takes its place is one of these parts, or is made of parts of them, so that no
rewriting makes room for another one. What is left is in normal form, and the grammars in normal
form are those that simplification leaves as they are. -/
namespace Peg

namespace Expr

/-- There is nothing to simplify at the node itself. A group stands around a labeled expression or a
sequence, no display name stands right inside another one, and, where choices are flattened, no
alternative of a choice is a choice. -/
structure SimpleRoot (flattenChoices : Bool) (e : Expr) : Prop where
  groups : ∀ span body, e = wrapped span .group body →
    (∃ inner label labeled, body = wrapped inner (.labeled label) labeled) ∨
      ∃ inner es, body = sequence inner es
  names : ∀ span name body, e = wrapped span (.named name) body →
    ∀ inner name' body', body ≠ wrapped inner (.named name') body'
  choices : flattenChoices = true → ∀ span es, e = choice span es →
    ∀ inner es', choice inner es' ∉ es

/-- There is nothing to simplify in the expression: it is in normal form. -/
def Simple (flattenChoices : Bool) (e : Expr) : Prop :=
  ∀ part ∈ e.subterms, part.SimpleRoot flattenChoices

variable {flattenChoices : Bool} {span : Span} {e body : Expr} {es : List Expr}

theorem leaksLabels_iff : body.leaksLabels = true ↔
    (∃ inner label labeled, body = wrapped inner (.labeled label) labeled) ∨
      ∃ inner es, body = sequence inner es := by
  constructor
  · intro h
    cases body with
    | wrapped inner wrapper labeled =>
      cases wrapper with
      | labeled label => exact Or.inl ⟨inner, label, labeled, rfl⟩
      | _ => cases h
    | sequence inner es => exact Or.inr ⟨inner, es, rfl⟩
    | _ => cases h
  · rintro (⟨inner, label, labeled, rfl⟩ | ⟨inner, es, rfl⟩) <;> rfl

theorem simpleRoot_group :
    (wrapped span .group body).SimpleRoot flattenChoices ↔ body.leaksLabels = true := by
  rw [leaksLabels_iff]
  constructor
  · intro h
    exact h.groups span body rfl
  · intro h
    refine ⟨?_, nofun, nofun⟩
    rintro _ _ ⟨⟩
    exact h

theorem simpleRoot_named {name : String} :
    (wrapped span (.named name) body).SimpleRoot flattenChoices ↔ body.asNamed? = none := by
  constructor
  · intro h
    cases hn : body.asNamed? with
    | none => rfl
    | some named =>
      obtain ⟨inner, hbody⟩ := exists_of_asNamed? hn
      exact absurd hbody (h.names span name body rfl inner named.1 named.2)
  · intro h
    refine ⟨nofun, ?_, nofun⟩
    rintro _ _ _ ⟨⟩ inner name' body' rfl
    cases h

theorem simpleRoot_choice : (choice span es).SimpleRoot flattenChoices ↔
    (flattenChoices = true → ∀ inner es', choice inner es' ∉ es) := by
  constructor
  · intro h hf
    exact h.choices hf span es rfl
  · intro h
    refine ⟨nofun, nofun, ?_⟩
    rintro hf _ _ ⟨⟩
    exact h hf

theorem simple_sequence :
    (sequence span es).Simple flattenChoices ↔ ∀ e ∈ es, e.Simple flattenChoices := by
  have hroot : (sequence span es).SimpleRoot flattenChoices := by
    constructor <;> simp
  unfold Simple
  rw [subterms, List.forall_mem_cons, forall_mem_subtermsOfAll]
  exact and_iff_right hroot

theorem simple_choice : (choice span es).Simple flattenChoices ↔
    (flattenChoices = true → ∀ inner es', choice inner es' ∉ es) ∧
      ∀ e ∈ es, e.Simple flattenChoices := by
  unfold Simple
  rw [subterms, List.forall_mem_cons, forall_mem_subtermsOfAll, simpleRoot_choice]

theorem simple_wrapped {wrapper : Wrapper} : (wrapped span wrapper body).Simple flattenChoices ↔
    (wrapped span wrapper body).SimpleRoot flattenChoices ∧ body.Simple flattenChoices := by
  unfold Simple
  rw [subterms, List.forall_mem_cons]

/-- Alternatives that are simple stay so when those among them that are choices are written out, as
the alternatives of these are no choices. -/
theorem simple_flattened (h : ∀ e ∈ es, e.Simple true) :
    (choice span (es.flatMap flattenChoice)).Simple true := by
  have hmem : ∀ part ∈ es.flatMap flattenChoice,
      (∀ inner es', part ≠ choice inner es') ∧ part.Simple true := by
    intro part hp
    obtain ⟨e, he, hp⟩ := List.mem_flatMap.mp hp
    have hsimple := h e he
    cases e with
    | choice inner alternatives =>
      obtain ⟨hroot, hparts⟩ := simple_choice.mp hsimple
      refine ⟨?_, hparts part hp⟩
      rintro inner' es' rfl
      exact hroot rfl inner' es' hp
    | literal | charClass | any | ruleRef | predicate | sequence | wrapped =>
      obtain rfl := List.mem_singleton.mp hp
      exact ⟨nofun, hsimple⟩
  apply simple_choice.mpr
  constructor
  · intro _ inner es' hm
    exact (hmem _ hm).1 inner es' rfl
  · intro part hp
    exact (hmem part hp).2

/-- What is simplified is simple if the parts are. A group gives way to its body, which has been
simplified itself; of a display name in another one the body is left, which is under no name. -/
theorem Simple.simplifyRoot_wrapped (h : body.Simple flattenChoices) (wrapper : Wrapper) :
    (simplifyRoot flattenChoices (wrapped span wrapper body)).Simple flattenChoices := by
  cases wrapper with
  | group =>
    rw [simplifyRoot]
    split
    · rename_i hl
      exact simple_wrapped.mpr ⟨simpleRoot_group.mpr hl, h⟩
    · exact h
  | named name =>
    rw [simplifyRoot]
    cases hn : body.asNamed? with
    | none => exact simple_wrapped.mpr ⟨simpleRoot_named.mpr hn, h⟩
    | some inside =>
      obtain ⟨inner, rfl⟩ := exists_of_asNamed? hn
      obtain ⟨hroot, hbody⟩ := simple_wrapped.mp h
      exact simple_wrapped.mpr ⟨simpleRoot_named.mpr (simpleRoot_named.mp hroot), hbody⟩
  | labeled | action | text | optional | zeroOrMore | oneOrMore | followedBy | notFollowedBy =>
    refine simple_wrapped.mpr ⟨?_, h⟩
    constructor <;> simp

/-- One run of simplification comes to the normal form. -/
theorem simple_rebuild (flattenChoices : Bool) (e : Expr) :
    (e.rebuild (simplifyRoot flattenChoices)).Simple flattenChoices := by
  induction e using Expr.induct with
  | literal | charClass | any | ruleRef | predicate =>
    rintro part hp
    obtain rfl := List.mem_singleton.mp hp
    constructor <;> simp [rebuild, simplifyRoot]
  | sequence span es ih =>
    rw [rebuild, rebuildAll_eq_map]
    exact simple_sequence.mpr (List.forall_mem_map.mpr ih)
  | choice span es ih =>
    rw [rebuild, rebuildAll_eq_map, simplifyRoot]
    have hparts := List.forall_mem_map.mpr ih
    cases flattenChoices with
    | true => exact simple_flattened hparts
    | false => exact simple_choice.mpr ⟨fun hf => absurd hf Bool.false_ne_true, hparts⟩
  | wrapped span wrapper body ih =>
    rw [rebuild]
    exact ih.simplifyRoot_wrapped wrapper

/-- Once the group between two choices is gone, they are made one in the same run. -/
example : (choice span [wrapped span .group (choice span [any span, any span]), any span]).rebuild
    (simplifyRoot true) = choice span [any span, any span, any span] := rfl

theorem flatMap_flattenChoice_eq_self (h : ∀ inner es', choice inner es' ∉ es) :
    es.flatMap flattenChoice = es := by
  have hsingle : ∀ e ∈ es, e.flattenChoice = [e] := by
    intro e he
    cases e with
    | choice inner es' => exact absurd he (h inner es')
    | _ => rfl
  calc
    es.flatMap flattenChoice = es.flatMap fun e => [e] := List.flatMap_congr hsingle
    _ = es := List.flatMap_singleton' es

/-- A node that there is nothing to simplify at stays as it is. -/
theorem SimpleRoot.simplifyRoot_eq_self (h : e.SimpleRoot flattenChoices) :
    simplifyRoot flattenChoices e = e := by
  cases e with
  | wrapped span wrapper body =>
    cases wrapper with
    | group => rw [simplifyRoot, if_pos (simpleRoot_group.mp h)]
    | named name => rw [simplifyRoot, simpleRoot_named.mp h]; rfl
    | _ => rfl
  | choice span es =>
    rw [simplifyRoot]
    split
    · rename_i hf
      rw [flatMap_flattenChoice_eq_self (simpleRoot_choice.mp h hf)]
    · rfl
  | _ => rfl

/-- The expressions in normal form are those that simplification leaves as they are. -/
theorem rebuild_simplifyRoot_eq_self_iff :
    e.rebuild (simplifyRoot flattenChoices) = e ↔ e.Simple flattenChoices := by
  constructor
  · intro h
    rw [← h]
    exact simple_rebuild flattenChoices e
  · intro h
    exact rebuild_of_fixed fun part hp => (h part hp).simplifyRoot_eq_self

end Expr

namespace Grammar

variable {flattenChoices : Bool} {grammar : Grammar}

theorem simple_simplify (flattenChoices : Bool) (grammar : Grammar) :
    ∀ part ∈ (grammar.simplify flattenChoices).subterms, part.SimpleRoot flattenChoices := by
  intro part hp
  obtain ⟨simplified, hm, hp⟩ := List.mem_flatMap.mp hp
  obtain ⟨rule, -, rfl⟩ := List.mem_map.mp hm
  exact rule.expr.simple_rebuild flattenChoices part hp

/-- The grammars in normal form are those that simplification leaves as they are. -/
theorem simplify_eq_self_iff : grammar.simplify flattenChoices = grammar ↔
    ∀ part ∈ grammar.subterms, part.SimpleRoot flattenChoices := by
  constructor
  · intro h
    rw [← h]
    exact simple_simplify flattenChoices grammar
  · intro h
    have hrules : (grammar.simplify flattenChoices).rules = grammar.rules := by
      calc
        (grammar.simplify flattenChoices).rules = grammar.rules.map id := by
          apply List.map_congr_left
          intro rule hm
          have hexpr : rule.expr.rebuild (Expr.simplifyRoot flattenChoices) = rule.expr :=
            Expr.rebuild_simplifyRoot_eq_self_iff.mpr fun part hp =>
              h part (List.mem_flatMap.mpr ⟨rule, hm, hp⟩)
          rw [hexpr]
          rfl
        _ = grammar.rules := List.map_id grammar.rules
    show { grammar with rules := (grammar.simplify flattenChoices).rules } = grammar
    rw [hrules]

/-- Simplification reaches a normal form in one run, whatever the grammar and whichever way it is
to be optimized. Groups are left only around labeled expressions and sequences, no display name is
left right inside another one, and, where choices are flattened for speed, no choice is left among
the alternatives of a choice. What is in this form, the result of the run above all, a run leaves as
it is, and nothing else. -/
theorem simplify_reaches_normal_form (options : Options) (grammar : Grammar) :
    ∃ simple : Grammar, Pass.simplify.outcome options grammar = .ok simple ∧
      (∀ part ∈ simple.subterms, part.SimpleRoot (options.optimize == .speed)) ∧
      Pass.simplify.outcome options simple = .ok simple ∧
      (Pass.simplify.outcome options grammar = .ok grammar ↔
        ∀ part ∈ grammar.subterms, part.SimpleRoot (options.optimize == .speed)) := by
  have houtcome (grammar : Grammar) : Pass.simplify.outcome options grammar =
      .ok (grammar.simplify (options.optimize == .speed)) := rfl
  have hsimple := simple_simplify (options.optimize == .speed) grammar
  refine ⟨_, houtcome grammar, hsimple, ?_, ?_⟩
  · rw [houtcome, simplify_eq_self_iff.mpr hsimple]
  · rw [houtcome, Except.ok.injEq]
    exact simplify_eq_self_iff

end Grammar
end Peg
