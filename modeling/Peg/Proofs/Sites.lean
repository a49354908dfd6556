import Peg.Proofs.Plainness

/-! The places of code blocks in a grammar, with the labels that are visible where the check of
labels comes to them. Transformations make no new ones: what a block sees in the grammar that is
left, it saw in the grammar that was checked. And where the check finds nothing, no two labels that
a block sees have the same name. -/
namespace Peg

/-- A code block of an action or a predicate, where the check of labels comes to its expression. -/
structure CodeSite where
  kind : CallKind
  code : String
  span : Span
  /-- The labels that are visible where the check comes to the expression. -/
  visible : LabelEnv
  /-- The labels that the operand of an action leaves bound. -/
  bound : List String

namespace Expr

/-- The labels that the expression leaves bound: its own, or those of the elements of a sequence. -/
def bound : Expr → List String
  | sequence _ es => es.flatMap labels
  | e => e.labels

/-- The labels that the check takes to be visible behind expressions that follow each other. -/
def checkFront (env : LabelEnv) (front : List Expr) : Except GrammarError LabelEnv :=
  front.foldlM (fun env e => e.checkLabels env) env

/-- The part of the number, with the labels that are visible where the check comes to it, `env`
being visible where it comes to the expression. -/
def enter? (env : LabelEnv) (i : Nat) : Expr → Option (LabelEnv × Expr)
  | sequence _ es => do
    let inside ← (checkFront env (es.take i)).toOption
    return (inside, ← es[i]?)
  | choice _ es => es[i]?.map fun e => (env, e)
  | wrapped _ _ body => if i = 0 then some (env, body) else none
  | _ => none

/-- The expression to which the path leads, with the labels visible where the check comes to it. -/
def visit? (env : LabelEnv) (e : Expr) : List Nat → Option (LabelEnv × Expr)
  | [] => some (env, e)
  | i :: path => (e.enter? env i).bind fun (inside, part) => part.visit? inside path

def site? (env : LabelEnv) : Expr → Option CodeSite
  | predicate span _ code => some ⟨.predicate, code, span, env, []⟩
  | wrapped span (.action code) body => some ⟨.action, code, span, env, body.bound⟩
  | _ => none

/-- The code block of the expression to which the path leads. -/
def siteAt? (env : LabelEnv) (e : Expr) (path : List Nat) : Option CodeSite :=
  (e.visit? env path).bind fun (inside, part) => part.site? inside

/-- The code block is one of the expression, where the labels of `env` are visible. -/
def HasSite (env : LabelEnv) (e : Expr) (site : CodeSite) : Prop :=
  ∃ path, e.siteAt? env path = some site

variable {env env' : LabelEnv} {e e' part : Expr} {site : CodeSite}

theorem visit?_append (path path' : List Nat) : e.visit? env (path ++ path') =
    (e.visit? env path).bind fun (inside, part) => part.visit? inside path' := by
  induction path generalizing env e with
  | nil => rfl
  | cons i path ih =>
    rw [List.cons_append, visit?, visit?]
    cases e.enter? env i with
    | none => rfl
    | some found => exact ih

/-- A path is longer by a step. -/
theorem visit?_concat {path : List Nat} {i : Nat} (h : e.visit? env path = some (env', part)) :
    e.visit? env (path ++ [i]) = part.enter? env' i := by
  rw [visit?_append, h]
  exact Option.bind_fun_some _

theorem hasSite_iff : e.HasSite env site ↔ e.site? env = some site ∨
    ∃ i inside part, e.enter? env i = some (inside, part) ∧ part.HasSite inside site := by
  constructor
  · rintro ⟨path, h⟩
    cases path with
    | nil => exact Or.inl h
    | cons i path =>
      unfold siteAt? at h
      rw [visit?] at h
      cases he : e.enter? env i with
      | none =>
        rw [he] at h
        cases h
      | some found =>
        rw [he] at h
        exact Or.inr ⟨i, found.1, found.2, he, path, h⟩
  · rintro (h | ⟨i, inside, part, he, path, h⟩)
    · exact ⟨[], h⟩
    · refine ⟨i :: path, ?_⟩
      unfold siteAt?
      rw [visit?, he]
      exact h

theorem hasSite_leaf (he : ∀ i, e.enter? env i = none) :
    e.HasSite env site ↔ e.site? env = some site := by
  rw [hasSite_iff]
  refine or_iff_left ?_
  rintro ⟨i, inside, part, hi, -⟩
  rw [he] at hi
  cases hi

theorem hasSite_wrapped {span : Span} {wrapper : Wrapper} {body : Expr} :
    (wrapped span wrapper body).HasSite env site ↔
      (wrapped span wrapper body).site? env = some site ∨ body.HasSite env site := by
  rw [hasSite_iff]
  refine or_congr_right ⟨?_, fun h => ⟨0, env, body, rfl, h⟩⟩
  rintro ⟨i, inside, part, hi, h⟩
  rw [enter?] at hi
  split at hi
  · cases hi
    exact h
  · cases hi

theorem hasSite_choice {span : Span} {es : List Expr} :
    (choice span es).HasSite env site ↔ ∃ e ∈ es, e.HasSite env site := by
  rw [hasSite_iff]
  constructor
  · rintro (h | ⟨i, inside, part, hi, h⟩)
    · cases h
    · obtain ⟨e, he, heq⟩ := Option.map_eq_some_iff.mp hi
      cases heq
      exact ⟨_, List.mem_of_getElem? he, h⟩
  · rintro ⟨e, he, h⟩
    obtain ⟨i, hi⟩ := List.getElem?_of_mem he
    exact Or.inr ⟨i, env, e, by rw [enter?, hi]; rfl, h⟩

/-- The check comes to an element behind those in front of it. -/
theorem enter?_sequence {span : Span} {es : List Expr} {i : Nat} :
    (sequence span es).enter? env i = some (env', part) ↔
      checkFront env (es.take i) = .ok env' ∧ es[i]? = some part := by
  rw [enter?]
  cases checkFront env (es.take i) with
  | error error => exact ⟨nofun, fun h => nomatch h.1⟩
  | ok inside =>
    cases es[i]? with
    | none => exact ⟨nofun, fun h => nomatch h.2⟩
    | some found =>
      constructor
      · intro h
        cases h
        exact ⟨rfl, rfl⟩
      · rintro ⟨h, h'⟩
        cases h
        cases h'
        rfl

theorem hasSite_sequence {span : Span} {es : List Expr} :
    (sequence span es).HasSite env site ↔ ∃ i inside e, checkFront env (es.take i) = .ok inside ∧
      es[i]? = some e ∧ e.HasSite inside site := by
  rw [hasSite_iff]
  constructor
  · rintro (h | ⟨i, inside, part, hi, h⟩)
    · cases h
    · obtain ⟨hfront, he⟩ := enter?_sequence.mp hi
      exact ⟨i, inside, part, hfront, he, h⟩
  · rintro ⟨i, inside, e, hfront, he, h⟩
    exact Or.inr ⟨i, inside, e, enter?_sequence.mpr ⟨hfront, he⟩, h⟩

/-- To the check of labels the second expression is like the first one, and it has no code blocks
that the first one does not have. -/
structure Inherits (e e' : Expr) : Prop where
  check : ∀ env, e'.checkLabels env = e.checkLabels env
  labels : e'.labels = e.labels
  bound : e'.bound = e.bound
  sites : ∀ {env site}, e'.HasSite env site → e.HasSite env site

theorem inherits_refl (e : Expr) : e.Inherits e := ⟨fun _ => rfl, rfl, rfl, id⟩

theorem Inherits.trans {e'' : Expr} (h : e.Inherits e') (h' : e'.Inherits e'') :
    e.Inherits e'' where
  check env := (h'.check env).trans (h.check env)
  labels := h'.labels.trans h.labels
  bound := h'.bound.trans h.bound
  sites hs := h.sites (h'.sites hs)

theorem checkLabels_wrapped {span : Span} {wrapper : Wrapper} {body : Expr}
    (hw : ∀ label, wrapper ≠ .labeled label) (env : LabelEnv) :
    (wrapped span wrapper body).checkLabels env = (body.checkLabels env).map fun _ => env := by
  rw [checkLabels]
  · cases body.checkLabels env <;> rfl
  · exact hw

/-- The check of a sequence goes through all elements, and then forgets their labels. -/
theorem checkElements_eq (env : LabelEnv) (es : List Expr) :
    checkElements env es = (checkFront env es).map fun _ => () := by
  unfold checkFront
  induction es generalizing env with
  | nil => rfl
  | cons e es ih =>
    rw [checkElements, List.foldlM_cons]
    cases e.checkLabels env with
    | error error => rfl
    | ok env' => exact ih env'

theorem inherits_wrapped {span : Span} {wrapper : Wrapper} {body body' : Expr}
    (h : body.Inherits body') :
    (wrapped span wrapper body).Inherits (wrapped span wrapper body') := by
  have hlabels : (wrapped span wrapper body').labels = (wrapped span wrapper body).labels := by
    cases wrapper <;> rfl
  refine ⟨fun env => ?_, hlabels, hlabels, fun hs => ?_⟩
  · by_cases hw : ∃ label, wrapper = .labeled label
    · obtain ⟨label, rfl⟩ := hw
      rw [checkLabels, checkLabels, h.check]
    · rw [checkLabels_wrapped fun label hl => hw ⟨label, hl⟩,
        checkLabels_wrapped fun label hl => hw ⟨label, hl⟩, h.check]
  · rw [hasSite_wrapped] at hs ⊢
    refine hs.imp (fun hroot => ?_) h.sites
    cases wrapper with
    | action code =>
      rw [site?, h.bound] at hroot
      exact hroot
    | _ => cases hroot

section Members

variable {span : Span} {es : List Expr} {f : Expr → Expr} (h : ∀ e ∈ es, e.Inherits (f e))

include h

theorem checkFront_map (env : LabelEnv) : checkFront env (es.map f) = checkFront env es := by
  unfold checkFront
  induction es generalizing env with
  | nil => rfl
  | cons e es ih =>
    rw [List.map_cons, List.foldlM_cons, List.foldlM_cons, (h e List.mem_cons_self).check]
    cases e.checkLabels env with
    | error error => rfl
    | ok env' => exact ih (fun e he => h e (List.mem_cons_of_mem _ he)) env'

theorem checkAlternatives_map (env : LabelEnv) :
    checkAlternatives env (es.map f) = checkAlternatives env es := by
  induction es with
  | nil => rfl
  | cons e es ih =>
    rw [List.map_cons, checkAlternatives, checkAlternatives, (h e List.mem_cons_self).check,
      ih fun e he => h e (List.mem_cons_of_mem _ he)]

theorem inherits_sequence : (sequence span es).Inherits (sequence span (es.map f)) := by
  have hlabels : (es.map f).flatMap labels = es.flatMap labels := by
    rw [List.flatMap_map, List.flatMap_def, List.flatMap_def,
      List.map_congr_left fun e he => (h e he).labels]
  refine ⟨fun env => ?_, rfl, hlabels, fun hs => ?_⟩
  · rw [checkLabels, checkLabels, checkElements_eq, checkElements_eq, checkFront_map h]
  · obtain ⟨i, inside, e', hfront, he', hs⟩ := hasSite_sequence.mp hs
    rw [List.getElem?_map] at he'
    obtain ⟨e, he, rfl⟩ := Option.map_eq_some_iff.mp he'
    rw [← List.map_take, checkFront_map fun e he => h e (List.mem_of_mem_take he)] at hfront
    have hinherits := h e (List.mem_of_getElem? he)
    exact hasSite_sequence.mpr ⟨i, inside, e, hfront, he, hinherits.sites hs⟩

theorem inherits_choice : (choice span es).Inherits (choice span (es.map f)) := by
  refine ⟨fun env => ?_, rfl, rfl, fun hs => ?_⟩
  · rw [checkLabels, checkLabels, checkAlternatives_map h]
  · obtain ⟨e', he', hs⟩ := hasSite_choice.mp hs
    obtain ⟨e, he, rfl⟩ := List.mem_map.mp he'
    exact hasSite_choice.mpr ⟨e, he, (h e he).sites hs⟩

end Members

/-- Rebuilding makes no new code blocks if it makes none at any node. -/
theorem inherits_rebuild {f : Expr → Expr} (hf : ∀ e : Expr, e.Inherits (f e)) (e : Expr) :
    e.Inherits (e.rebuild f) := by
  induction e using Expr.induct with
  | literal | charClass | any | ruleRef | predicate => exact hf _
  | sequence span es ih =>
    rw [rebuild, rebuildAll_eq_map]
    exact (inherits_sequence ih).trans (hf _)
  | choice span es ih =>
    rw [rebuild, rebuildAll_eq_map]
    exact (inherits_choice ih).trans (hf _)
  | wrapped span wrapper body ih =>
    rw [rebuild]
    exact (inherits_wrapped ih).trans (hf _)

theorem inherits_redirectRef (old new : String) (e : Expr) :
    e.Inherits (redirectRef old new e) := by
  cases e with
  | ruleRef span name =>
    refine ⟨fun _ => rfl, rfl, rfl, fun hs => ?_⟩
    unfold redirectRef at hs
    cases (hasSite_leaf fun _ => rfl).mp hs
  | _ => exact inherits_refl _

/-- Around what leaves no labels bound a group makes no difference. -/
theorem inherits_ungroup {span : Span} {body : Expr} (h : body.leaksLabels = false) :
    (wrapped span .group body).Inherits body := by
  have hbound : body.bound = [] ∧ body.labels = [] ∧
      ∀ env, (body.checkLabels env).map (fun _ => env) = body.checkLabels env := by
    cases body with
    | sequence => cases h
    | wrapped span' wrapper inner =>
      have hw (label : String) : wrapper ≠ .labeled label := by
        rintro rfl
        cases h
      have hlabels : (wrapped span' wrapper inner).labels = [] := by
        cases wrapper with
        | labeled label => exact absurd rfl (hw label)
        | _ => rfl
      refine ⟨hlabels, hlabels, fun env => ?_⟩
      rw [checkLabels_wrapped hw]
      cases inner.checkLabels env <;> rfl
    | choice span' es =>
      refine ⟨rfl, rfl, fun env => ?_⟩
      rw [checkLabels]
      cases checkAlternatives env es <;> rfl
    | literal | charClass | any | ruleRef | predicate => exact ⟨rfl, rfl, fun _ => rfl⟩
  refine ⟨fun env => ?_, hbound.2.1, hbound.1, fun hs => hasSite_wrapped.mpr (Or.inr hs)⟩
  rw [checkLabels_wrapped, hbound.2.2]
  intro label h
  cases h

theorem checkAlternatives_append (env : LabelEnv) (es es' : List Expr) :
    checkAlternatives env (es ++ es') =
      checkAlternatives env es >>= fun _ => checkAlternatives env es' := by
  induction es with
  | nil => rfl
  | cons e es ih =>
    rw [List.cons_append, checkAlternatives, checkAlternatives, ih]
    cases e.checkLabels env <;> rfl

/-- The alternatives of an alternative see the labels that it sees. -/
theorem inherits_flatten {span : Span} (es : List Expr) :
    (choice span es).Inherits (choice span (es.flatMap flattenChoice)) := by
  refine ⟨fun env => ?_, rfl, rfl, fun hs => ?_⟩
  · have hflat : checkAlternatives env (es.flatMap flattenChoice) = checkAlternatives env es := by
      induction es with
      | nil => rfl
      | cons e es ih =>
        rw [List.flatMap_cons, checkAlternatives_append, ih, checkAlternatives]
        cases e with
        | choice span' alternatives =>
          rw [checkLabels, flattenChoice]
          cases checkAlternatives env alternatives <;> rfl
        | _ =>
          rw [flattenChoice]
          · rw [checkAlternatives, checkAlternatives]
            cases checkLabels env _ <;> rfl
          · intro span' alternatives he
            cases he
    rw [checkLabels, checkLabels, hflat]
  · obtain ⟨part, hp, hs⟩ := hasSite_choice.mp hs
    obtain ⟨e, he, hp⟩ := List.mem_flatMap.mp hp
    refine hasSite_choice.mpr ⟨e, he, ?_⟩
    cases e with
    | choice span' alternatives => exact hasSite_choice.mpr ⟨part, hp, hs⟩
    | _ =>
      cases List.mem_singleton.mp hp
      exact hs

theorem inherits_simplifyRoot (flattenChoices : Bool) (e : Expr) :
    e.Inherits (simplifyRoot flattenChoices e) := by
  cases e with
  | wrapped span wrapper body =>
    cases wrapper with
    | group =>
      unfold simplifyRoot
      dsimp only
      split
      · exact inherits_refl _
      · rename_i hl
        exact inherits_ungroup (Bool.eq_false_of_not_eq_true hl)
    | named name =>
      unfold simplifyRoot
      dsimp only
      cases hn : body.asNamed? with
      | none => exact inherits_refl _
      | some named =>
        obtain ⟨span', rfl⟩ := exists_of_asNamed? hn
        refine ⟨fun env => ?_, rfl, rfl, fun hs => ?_⟩
        · have hnamed (span : Span) (name : String) (body : Expr) :
              (wrapped span (.named name) body).checkLabels env =
                (body.checkLabels env).map fun _ => env :=
            checkLabels_wrapped (fun _ h => by cases h) env
          rw [hnamed, hnamed, hnamed]
          dsimp only [Option.map_some, Option.getD_some]
          cases named.2.checkLabels env <;> rfl
        · rcases hasSite_wrapped.mp hs with hroot | hs
          · cases hroot
          · exact hasSite_wrapped.mpr (Or.inr (hasSite_wrapped.mpr (Or.inr hs)))
    | _ => exact inherits_refl _
  | choice span es =>
    unfold simplifyRoot
    cases flattenChoices with
    | false => exact inherits_refl _
    | true => exact inherits_flatten es
  | _ => exact inherits_refl _

/-- The check of labels finds nothing in the second expression if it does not in the first one. -/
theorem Inherits.distinct (h : e.Inherits e') (env : LabelEnv) (hd : e.Distinct (env.map (·.1))) :
    e'.Distinct (env.map (·.1)) := by
  rcases e.checkLabels_cases env with ⟨inside, hok, -, -⟩ | ⟨error, -, hd'⟩
  · rcases e'.checkLabels_cases env with ⟨-, -, -, hd'⟩ | ⟨error, he, -⟩
    · exact hd'
    · rw [h.check, hok] at he
      cases he
  · exact absurd hd hd'

/-- Where the check finds nothing, it comes to every element of a sequence, and the labels of those
in front are visible there. -/
theorem exists_checkFront {span : Span} {front back : List Expr}
    (hd : (sequence span (front ++ back)).Distinct (env.map (·.1))) :
    ∃ inside, checkFront env front = .ok inside ∧
      inside.map (·.1) = env.map (·.1) ++ front.flatMap labels ∧
      (sequence span back).Distinct (inside.map (·.1)) := by
  unfold checkFront
  induction front generalizing env with
  | nil => exact ⟨env, rfl, (List.append_nil _).symm, hd⟩
  | cons e front ih =>
    obtain ⟨he, hrest⟩ := distinct_sequence_cons.mp hd
    rcases e.checkLabels_cases env with ⟨env', hok, hlabels, -⟩ | ⟨error, -, hd'⟩
    · rw [← hlabels] at hrest
      obtain ⟨inside, hfront, hinside, hback⟩ := ih hrest
      refine ⟨inside, ?_, ?_, hback⟩
      · rw [List.foldlM_cons, hok]
        exact hfront
      · rw [hinside, hlabels, List.flatMap_cons, List.append_assoc]
    · exact absurd he hd'

variable {visible : List String}

theorem Distinct.nodup_labels (h : e.Distinct visible) (hv : visible.Nodup) :
    (visible ++ e.labels).Nodup := by
  cases e with
  | wrapped span wrapper body =>
    cases wrapper with
    | labeled label =>
      have hnew : label ∉ visible := (distinct_wrapped.mp h).1 label rfl
      exact List.nodup_append_comm.mp (List.nodup_cons.mpr ⟨hnew, hv⟩)
    | _ => exact (List.append_nil visible).symm ▸ hv
  | _ => exact (List.append_nil visible).symm ▸ hv

/-- The labels of elements are distinct, if no element binds one that is visible to it. -/
theorem nodup_elements {span : Span} {front back : List Expr}
    (h : (sequence span (front ++ back)).Distinct visible) (hv : visible.Nodup) :
    (visible ++ front.flatMap labels).Nodup := by
  induction front generalizing visible with
  | nil => exact (List.append_nil visible).symm ▸ hv
  | cons e front ih =>
    obtain ⟨he, hrest⟩ := distinct_sequence_cons.mp h
    rw [List.flatMap_cons, ← List.append_assoc]
    exact ih hrest (he.nodup_labels hv)

theorem Distinct.nodup_bound (h : e.Distinct visible) (hv : visible.Nodup) :
    (visible ++ e.bound).Nodup := by
  cases e with
  | sequence span es => exact nodup_elements ((List.append_nil es).symm ▸ h) hv
  | _ => exact h.nodup_labels hv

/-- Where the check finds nothing, the labels that a code block sees have different names. -/
theorem HasSite.nodup (h : e.HasSite env site) (hd : e.Distinct (env.map (·.1)))
    (hv : (env.map (·.1)).Nodup) : (site.visible.map (·.1) ++ site.bound).Nodup := by
  induction e using Expr.induct generalizing env with
  | literal | charClass | any | ruleRef => cases (hasSite_leaf fun _ => rfl).mp h
  | predicate span negated code =>
    cases (hasSite_leaf fun _ => rfl).mp h
    exact (List.append_nil _).symm ▸ hv
  | sequence span es ih =>
    obtain ⟨i, inside, e, hfront, he, hs⟩ := hasSite_sequence.mp h
    obtain ⟨hi, rfl⟩ := List.getElem?_eq_some_iff.mp he
    rw [← List.take_append_drop i es, List.drop_eq_getElem_cons hi] at hd
    obtain ⟨inside', hfront', hinside, hback⟩ := exists_checkFront hd
    cases hfront.symm.trans hfront'
    refine ih _ (List.getElem_mem hi) hs (distinct_sequence_cons.mp hback).1 ?_
    rw [hinside]
    exact nodup_elements hd hv
  | choice span es ih =>
    obtain ⟨e, he, hs⟩ := hasSite_choice.mp h
    exact ih e he hs (distinct_choice.mp hd e he) hv
  | wrapped span wrapper body ih =>
    rw [distinct_wrapped] at hd
    rcases hasSite_wrapped.mp h with hroot | hs
    · cases wrapper with
      | action code =>
        cases hroot
        exact hd.2.nodup_bound hv
      | _ => cases hroot
    · exact ih hs hd.2 hv

end Expr

namespace Grammar

variable {grammar grammar' : Grammar} {site : CodeSite}

def siteAt? (grammar : Grammar) (id : RuleId) (path : List Nat) : Option CodeSite :=
  grammar.rules[id]?.bind fun rule => rule.expr.siteAt? [] path

def HasSite (grammar : Grammar) (site : CodeSite) : Prop :=
  ∃ id path, grammar.siteAt? id path = some site

theorem hasSite_iff : grammar.HasSite site ↔ ∃ rule ∈ grammar.rules, rule.expr.HasSite [] site := by
  constructor
  · rintro ⟨id, path, h⟩
    obtain ⟨rule, hr, h⟩ := Option.bind_eq_some_iff.mp h
    exact ⟨rule, List.mem_of_getElem? hr, path, h⟩
  · rintro ⟨rule, hm, path, h⟩
    obtain ⟨id, hi⟩ := List.getElem?_of_mem hm
    exact ⟨id, path, Option.bind_eq_some_iff.mpr ⟨rule, hi, h⟩⟩

/-- The check of labels finds nothing in the second grammar, and it has no code blocks that the
first one does not have. -/
structure Inherits (grammar grammar' : Grammar) : Prop where
  distinct : ∀ rule ∈ grammar'.rules, rule.expr.Distinct []
  sites : ∀ {site}, grammar'.HasSite site → grammar.HasSite site

theorem Inherits.rebuild (h : grammar.Inherits grammar') {f : Expr → Expr}
    (hf : ∀ e : Expr, e.Inherits (f e)) : grammar.Inherits (grammar'.rebuild f) where
  distinct := List.forall_mem_map.mpr fun rule hm =>
    (Expr.inherits_rebuild hf rule.expr).distinct [] (h.distinct rule hm)
  sites hs := by
    obtain ⟨rule', hm', hs⟩ := hasSite_iff.mp hs
    obtain ⟨rule, hm, rfl⟩ := List.mem_map.mp hm'
    exact h.sites (hasSite_iff.mpr ⟨rule, hm, (Expr.inherits_rebuild hf rule.expr).sites hs⟩)

/-- What the passes leave has its code blocks from the grammar that was checked, and no sequence is
an element of a sequence. -/
theorem inherits_of_leaves {left : Grammar} {passes : List Pass} {options : Options}
    (h : grammar.Leaves passes options left) (hp : grammar.Plain)
    (hd : ∀ rule ∈ grammar.rules, rule.expr.Distinct []) : left.Plain ∧ grammar.Inherits left := by
  refine leaves_preserves (P := fun left => left.Plain ∧ grammar.Inherits left) h
    ⟨hp, hd, id⟩ (fun left names ⟨hp, hi⟩ => ⟨hp.removeProxies names, ?_⟩)
    fun left flattenChoices ⟨hp, hi⟩ =>
      ⟨hp.simplify flattenChoices, hi.rebuild (Expr.inherits_simplifyRoot flattenChoices)⟩
  refine removeProxies_preserves (P := fun left => grammar.Inherits left) names
    (fun left index rule target _ _ hi => hi.rebuild (Expr.inherits_redirectRef rule.name target))
    (fun left rules hs hi => ⟨fun rule hm => hi.distinct rule (hs.subset hm), fun hsite => ?_⟩) hi
  obtain ⟨rule, hm, hsite⟩ := hasSite_iff.mp hsite
  exact hi.sites (hasSite_iff.mpr ⟨rule, hs.subset hm, hsite⟩)

end Grammar
end Peg
