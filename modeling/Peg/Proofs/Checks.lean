import Peg.Proofs.LeftRecursion
import Peg.Proofs.Regrouping

/-! What the checks see to, in terms that do not depend on how they search for it. They find nothing
exactly where names are declared once and resolved, labels are bound once where they are visible,
no rule leads back to itself before input is consumed, and what is repeated consumes input. All this
goes for the rules that do the same as well. -/
namespace Peg

namespace Expr

/-- The labels that the check takes to be visible behind the expression. -/
def labels : Expr → List String
  | wrapped _ (.labeled label) _ => [label]
  | _ => []

mutual

/-- No label is bound where one of the same name is visible, those of `visible` included. -/
def Distinct (visible : List String) : Expr → Prop
  | sequence _ elements => DistinctElements visible elements
  | choice _ alternatives => DistinctAlternatives visible alternatives
  | wrapped _ wrapper body =>
    (∀ label, wrapper = .labeled label → label ∉ visible) ∧ body.Distinct visible
  | _ => True

def DistinctElements (visible : List String) : List Expr → Prop
  | [] => True
  | e :: es => e.Distinct visible ∧ DistinctElements (visible ++ e.labels) es

def DistinctAlternatives (visible : List String) : List Expr → Prop
  | [] => True
  | e :: es => e.Distinct visible ∧ DistinctAlternatives visible es

end

variable {visible visible' : List String} {e e' : Expr}

theorem distinct_sequence_cons {span : Span} {es : List Expr} :
    (sequence span (e :: es)).Distinct visible ↔
      e.Distinct visible ∧ (sequence span es).Distinct (visible ++ e.labels) := by
  simp only [Distinct, DistinctElements]

theorem distinct_choice {span : Span} {es : List Expr} :
    (choice span es).Distinct visible ↔ ∀ e ∈ es, e.Distinct visible := by
  rw [Distinct]
  induction es with
  | nil => simp [DistinctAlternatives]
  | cons e es ih => rw [DistinctAlternatives, ih, List.forall_mem_cons]

theorem distinct_wrapped {span : Span} {wrapper : Wrapper} {body : Expr} :
    (wrapped span wrapper body).Distinct visible ↔
      (∀ label, wrapper = .labeled label → label ∉ visible) ∧ body.Distinct visible := by
  rw [Distinct]

/-- The fewer labels are visible, the less they get in the way. -/
theorem Distinct.mono (h : e.Distinct visible) (hv : visible' ⊆ visible) : e.Distinct visible' := by
  induction e using Expr.induct generalizing visible visible' with
  | literal | charClass | any | ruleRef | predicate => exact trivial
  | sequence span es ih =>
    induction es generalizing visible visible' with
    | nil => exact trivial
    | cons e es ihes =>
      obtain ⟨he, hes⟩ := distinct_sequence_cons.mp h
      refine distinct_sequence_cons.mpr ⟨ih e List.mem_cons_self he hv, ?_⟩
      exact ihes (fun e hm _ _ => ih e (List.mem_cons_of_mem _ hm)) hes
        (List.append_subset.mpr ⟨List.Subset.trans hv (List.subset_append_left _ _),
          List.subset_append_right _ _⟩)
  | choice span es ih =>
    exact distinct_choice.mpr fun e hm => ih e hm (distinct_choice.mp h e hm) hv
  | wrapped span wrapper body ih =>
    obtain ⟨hl, hb⟩ := distinct_wrapped.mp h
    exact distinct_wrapped.mpr ⟨fun label hw hm => hl label hw (hv hm), ih hb hv⟩

theorem lookup_eq_none_iff {env : LabelEnv} {label : String} :
    env.lookup label = none ↔ label ∉ env.map (·.1) := by
  rw [List.lookup_eq_none_iff]
  constructor
  · intro h hm
    obtain ⟨entry, he, rfl⟩ := List.mem_map.mp hm
    have hne := h entry he
    rw [bne_iff_ne] at hne
    exact hne rfl
  · intro h entry he
    rw [bne_iff_ne]
    rintro rfl
    exact h (List.mem_map_of_mem he)

/-- The check of labels comes through exactly if they are distinct, and then knows those that are
visible behind the expression. -/
def ChecksLabels (e : Expr) : Prop :=
  ∀ env : LabelEnv,
    (∃ env', e.checkLabels env = .ok env' ∧ env'.map (·.1) = env.map (·.1) ++ e.labels ∧
      e.Distinct (env.map (·.1))) ∨
    ∃ error, e.checkLabels env = .error error ∧ ¬ e.Distinct (env.map (·.1))

/-- Elements are checked one after the other, each with the labels of those in front. -/
theorem checkElements_cases {es : List Expr} (h : ∀ e ∈ es, e.ChecksLabels) (span : Span)
    (env : LabelEnv) :
    checkElements env es = .ok () ∧ (sequence span es).Distinct (env.map (·.1)) ∨
    ∃ error, checkElements env es = .error error ∧
      ¬ (sequence span es).Distinct (env.map (·.1)) := by
  induction es generalizing env with
  | nil => exact Or.inl ⟨rfl, trivial⟩
  | cons e es ih =>
    rw [checkElements]
    rcases h e List.mem_cons_self env with ⟨env', hok, hlabels, hd⟩ | ⟨error, he, hd⟩
    · have hrest := ih (fun e hm => h e (List.mem_cons_of_mem _ hm)) env'
      rw [hlabels] at hrest
      rw [hok, distinct_sequence_cons]
      rcases hrest with ⟨hok', hd'⟩ | ⟨error, he, hd'⟩
      · exact Or.inl ⟨hok', hd, hd'⟩
      · exact Or.inr ⟨error, he, fun hboth => hd' hboth.2⟩
    · rw [he, distinct_sequence_cons]
      exact Or.inr ⟨error, rfl, fun hboth => hd hboth.1⟩

/-- Alternatives are checked each with the labels in front of the choice. -/
theorem checkAlternatives_cases {es : List Expr} (h : ∀ e ∈ es, e.ChecksLabels) (span : Span)
    (env : LabelEnv) :
    checkAlternatives env es = .ok () ∧ (choice span es).Distinct (env.map (·.1)) ∨
    ∃ error, checkAlternatives env es = .error error ∧
      ¬ (choice span es).Distinct (env.map (·.1)) := by
  simp only [distinct_choice]
  induction es with
  | nil => exact Or.inl ⟨rfl, List.forall_mem_nil _⟩
  | cons e es ih =>
    rw [checkAlternatives, List.forall_mem_cons]
    rcases h e List.mem_cons_self env with ⟨env', hok, -, hd⟩ | ⟨error, he, hd⟩
    · rw [hok]
      rcases ih fun e hm => h e (List.mem_cons_of_mem _ hm) with ⟨hok', hd'⟩ | ⟨error, he, hd'⟩
      · exact Or.inl ⟨hok', hd, hd'⟩
      · exact Or.inr ⟨error, he, fun hboth => hd' hboth.2⟩
    · rw [he]
      exact Or.inr ⟨error, rfl, fun hboth => hd hboth.1⟩

/-- A label must not be visible where it is bound, and is visible behind that. -/
theorem checksLabels_labeled {body : Expr} (h : body.ChecksLabels) (span : Span) (label : String) :
    (wrapped span (.labeled label) body).ChecksLabels := by
  intro env
  rw [checkLabels, distinct_wrapped]
  cases hl : env.lookup label with
  | some first =>
    refine Or.inr ⟨_, rfl, fun hboth => ?_⟩
    rw [lookup_eq_none_iff.mpr (hboth.1 label rfl)] at hl
    cases hl
  | none =>
    have hnew : ∀ label', Wrapper.labeled label = .labeled label' → label' ∉ env.map (·.1) := by
      rintro label' hlabel
      cases hlabel
      exact lookup_eq_none_iff.mp hl
    dsimp only
    rcases h env with ⟨env', hok, -, hd⟩ | ⟨error, he, hd⟩
    · refine Or.inl ⟨env ++ [(label, span)], by rw [hok]; rfl, ?_, hnew, hd⟩
      rw [List.map_append]
      rfl
    · exact Or.inr ⟨error, by rw [he]; rfl, fun hboth => hd hboth.2⟩

/-- Other wrappers bind no label and leave none behind. -/
theorem checksLabels_wrapped {body : Expr} (h : body.ChecksLabels) (span : Span)
    {wrapper : Wrapper} (hw : ∀ label, wrapper ≠ .labeled label) :
    (wrapped span wrapper body).ChecksLabels := by
  intro env
  have hlabels : (wrapped span wrapper body).labels = [] := by
    cases wrapper with
    | labeled label => exact absurd rfl (hw label)
    | _ => rfl
  rw [checkLabels, distinct_wrapped, hlabels]
  · rcases h env with ⟨env', hok, -, hd⟩ | ⟨error, he, hd⟩
    · refine Or.inl ⟨env, by rw [hok]; rfl, (List.append_nil _).symm, ?_, hd⟩
      exact fun label he => absurd he (hw label)
    · exact Or.inr ⟨error, by rw [he]; rfl, fun hboth => hd hboth.2⟩
  · exact hw

/-- The check of labels comes through exactly on expressions whose labels are distinct. -/
theorem checkLabels_cases (e : Expr) : e.ChecksLabels := by
  induction e using Expr.induct with
  | literal | charClass | any | ruleRef | predicate =>
    intro env
    exact Or.inl ⟨env, rfl, (List.append_nil _).symm, trivial⟩
  | sequence span es ih =>
    intro env
    rw [checkLabels]
    rcases checkElements_cases ih span env with ⟨hok, hd⟩ | ⟨error, he, hd⟩
    · exact Or.inl ⟨env, by rw [hok]; rfl, (List.append_nil _).symm, hd⟩
    · exact Or.inr ⟨error, by rw [he]; rfl, hd⟩
  | choice span es ih =>
    intro env
    rw [checkLabels]
    rcases checkAlternatives_cases ih span env with ⟨hok, hd⟩ | ⟨error, he, hd⟩
    · exact Or.inl ⟨env, by rw [hok]; rfl, (List.append_nil _).symm, hd⟩
    · exact Or.inr ⟨error, by rw [he]; rfl, hd⟩
  | wrapped span wrapper body ih =>
    by_cases hw : ∃ label, wrapper = .labeled label
    · obtain ⟨label, rfl⟩ := hw
      exact checksLabels_labeled ih span label
    · exact checksLabels_wrapped ih span fun label he => hw ⟨label, he⟩

/-- What does the same has no more labels visible behind it. -/
theorem Mimics.labels {Calls : String → String → Prop} (h : e.Mimics Calls e') :
    e'.labels ⊆ e.labels := by
  have hnone {e : Expr} (hb : e.bindsLabels = false) : e.labels = [] := by
    cases e with
    | wrapped span wrapper body =>
      cases wrapper with
      | labeled label => cases hb
      | _ => rfl
    | _ => rfl
  have hwrapped (span : Span) (wrapper : Wrapper) (e e' : Expr) :
      (Expr.wrapped span wrapper e).labels = (Expr.wrapped span wrapper e').labels := by
    cases wrapper <;> rfl
  induction h with
  | literal | charClass | any | ruleRef | predicate | sequence_nil | choice_nil | sequence_cons
  | choice_cons | choice_splice => exact List.nil_subset _
  | wrapped span span' wrapper e e' _ _ =>
    have heq : (Expr.wrapped span' wrapper e').labels = (Expr.wrapped span wrapper e).labels := by
      cases wrapper <;> rfl
    rw [heq]
    exact List.Subset.refl _
  | ungroup span e e' hb _ _ =>
    rw [hnone hb]
    exact List.nil_subset _
  | group span' e e' _ _ _ => exact List.nil_subset _
  | ungroup_inside span inner wrapper e e' _ _ ih => rwa [hwrapped span wrapper _ e]
  | group_inside span' inner wrapper e e' _ _ ih => rwa [hwrapped span' wrapper _ e']
  | unname_inside span inner name name' e e' _ ih => rwa [hwrapped span (.named name) _ e]

theorem distinct_group {span : Span} {body : Expr} :
    (wrapped span .group body).Distinct visible ↔ body.Distinct visible := by
  rw [distinct_wrapped]
  exact and_iff_right nofun

/-- The labels of what does the same are distinct, too. -/
theorem Mimics.distinct {Calls : String → String → Prop} (h : e.Mimics Calls e')
    (hd : e.Distinct visible) : e'.Distinct visible := by
  induction h generalizing visible with
  | literal | charClass | any | ruleRef | predicate | sequence_nil | choice_nil => exact trivial
  | sequence_cons span span' e e' es es' he _ ihe ihes =>
    obtain ⟨hfirst, hrest⟩ := distinct_sequence_cons.mp hd
    refine distinct_sequence_cons.mpr ⟨ihe hfirst, (ihes hrest).mono ?_⟩
    exact List.append_subset.mpr ⟨List.subset_append_left _ _,
      List.Subset.trans he.labels (List.subset_append_right _ _)⟩
  | choice_cons span span' e e' es es' _ _ ihe ihes =>
    obtain ⟨hfirst, hrest⟩ := List.forall_mem_cons.mp (distinct_choice.mp hd)
    have hrest' := ihes (distinct_choice.mpr hrest)
    exact distinct_choice.mpr (List.forall_mem_cons.mpr ⟨ihe hfirst, distinct_choice.mp hrest'⟩)
  | choice_splice span span' inner e es alternatives es' _ _ ihe ihes =>
    obtain ⟨hfirst, hrest⟩ := List.forall_mem_cons.mp (distinct_choice.mp hd)
    have hrest' := ihes (distinct_choice.mpr hrest)
    exact distinct_choice.mpr
      (List.forall_mem_append.mpr ⟨distinct_choice.mp (ihe hfirst), distinct_choice.mp hrest'⟩)
  | wrapped span span' wrapper e e' _ ih =>
    obtain ⟨hl, hb⟩ := distinct_wrapped.mp hd
    exact distinct_wrapped.mpr ⟨hl, ih hb⟩
  | ungroup span e e' _ _ ih => exact ih (distinct_group.mp hd)
  | group span' e e' _ _ ih => exact distinct_group.mpr (ih hd)
  | ungroup_inside span inner wrapper e e' _ _ ih =>
    rw [distinct_wrapped, distinct_group] at hd
    exact ih (distinct_wrapped.mpr hd)
  | group_inside span' inner wrapper e e' _ _ ih =>
    rw [distinct_wrapped, distinct_group, ← distinct_wrapped]
    exact ih hd
  | unname_inside span inner name name' e e' _ ih =>
    obtain ⟨hl, hb⟩ := distinct_wrapped.mp hd
    exact ih (distinct_wrapped.mpr ⟨hl, (distinct_wrapped.mp hb).2⟩)

/-- What is repeated in the expression consumes input, going by what `rule` says of rules. -/
def Repeats (rule : String → Bool) (e : Expr) : Prop :=
  ∀ part ∈ e.subterms, ∀ body, part.asRepetition? = some body → body.consumes rule = true

variable {rule : String → Bool}

theorem exists_of_asRepetition? {body : Expr} (h : e.asRepetition? = some body) :
    ∃ span wrapper, e = .wrapped span wrapper body := by
  cases e with
  | wrapped span wrapper inner =>
    cases wrapper <;> cases h
    · exact ⟨span, .zeroOrMore, rfl⟩
    · exact ⟨span, .oneOrMore, rfl⟩
  | literal | charClass | any | ruleRef | predicate | sequence | choice => cases h

theorem repeats_leaf (hs : e.subterms = [e]) (hr : e.asRepetition? = none) : e.Repeats rule := by
  intro part hp body hb
  rw [hs, List.mem_singleton] at hp
  rw [hp, hr] at hb
  cases hb

theorem repeats_sequence {span : Span} {es : List Expr} :
    (sequence span es).Repeats rule ↔ ∀ e ∈ es, e.Repeats rule := by
  unfold Repeats
  rw [subterms, List.forall_mem_cons, forall_mem_subtermsOfAll]
  refine and_iff_right fun body hb => ?_
  cases hb

theorem repeats_choice {span : Span} {es : List Expr} :
    (choice span es).Repeats rule ↔ ∀ e ∈ es, e.Repeats rule := by
  unfold Repeats
  rw [subterms, List.forall_mem_cons, forall_mem_subtermsOfAll]
  refine and_iff_right fun body hb => ?_
  cases hb

theorem repeats_wrapped {span : Span} {wrapper : Wrapper} {body : Expr} :
    (wrapped span wrapper body).Repeats rule ↔
      (wrapper = .zeroOrMore ∨ wrapper = .oneOrMore → body.consumes rule = true) ∧
        body.Repeats rule := by
  unfold Repeats
  rw [subterms, List.forall_mem_cons]
  refine and_congr_left fun _ => ?_
  cases wrapper <;> simp [asRepetition?]

/-- What does the same repeats only what consumes input, too. -/
theorem Mimics.repeats {Calls : String → String → Prop} (h : e.Mimics Calls e')
    (hcalls : ∀ name name', Calls name name' → rule name = true → rule name' = true)
    (hr : e.Repeats rule) : e'.Repeats rule := by
  have hconsumes {e e' : Expr} (h : e.Mimics Calls e') (hc : e.consumes rule = true) :
      e'.consumes rule = true := by
    have hnarrows : e.Narrows rule (fun _ _ => True) e' :=
      h.narrows fun name name' hc => ⟨hcalls name name' hc, .single trivial⟩
    exact hnarrows.consumes hc
  induction h with
  | literal | charClass | any | ruleRef | predicate | sequence_nil | choice_nil =>
    exact repeats_leaf rfl rfl
  | sequence_cons span span' e e' es es' _ _ ihe ihes =>
    obtain ⟨hfirst, hrest⟩ := List.forall_mem_cons.mp (repeats_sequence.mp hr)
    have hrest' := ihes (repeats_sequence.mpr hrest)
    exact repeats_sequence.mpr (List.forall_mem_cons.mpr ⟨ihe hfirst, repeats_sequence.mp hrest'⟩)
  | choice_cons span span' e e' es es' _ _ ihe ihes =>
    obtain ⟨hfirst, hrest⟩ := List.forall_mem_cons.mp (repeats_choice.mp hr)
    have hrest' := ihes (repeats_choice.mpr hrest)
    exact repeats_choice.mpr (List.forall_mem_cons.mpr ⟨ihe hfirst, repeats_choice.mp hrest'⟩)
  | choice_splice span span' inner e es alternatives es' _ _ ihe ihes =>
    obtain ⟨hfirst, hrest⟩ := List.forall_mem_cons.mp (repeats_choice.mp hr)
    have hrest' := ihes (repeats_choice.mpr hrest)
    exact repeats_choice.mpr
      (List.forall_mem_append.mpr ⟨repeats_choice.mp (ihe hfirst), repeats_choice.mp hrest'⟩)
  | wrapped span span' wrapper e e' he ih =>
    obtain ⟨hc, hb⟩ := repeats_wrapped.mp hr
    exact repeats_wrapped.mpr ⟨fun hw => hconsumes he (hc hw), ih hb⟩
  | ungroup span e e' _ _ ih => exact ih (repeats_wrapped.mp hr).2
  | group span' e e' _ _ ih => exact repeats_wrapped.mpr ⟨nofun, ih hr⟩
  | ungroup_inside span inner wrapper e e' _ _ ih =>
    obtain ⟨hc, hb⟩ := repeats_wrapped.mp hr
    exact ih (repeats_wrapped.mpr ⟨hc, (repeats_wrapped.mp hb).2⟩)
  | group_inside span' inner wrapper e e' _ _ ih =>
    obtain ⟨hc, hb⟩ := repeats_wrapped.mp (ih hr)
    exact repeats_wrapped.mpr ⟨hc, repeats_wrapped.mpr ⟨nofun, hb⟩⟩
  | unname_inside span inner name name' e e' _ ih =>
    obtain ⟨-, hb⟩ := repeats_wrapped.mp hr
    exact ih (repeats_wrapped.mpr ⟨nofun, (repeats_wrapped.mp hb).2⟩)

/-- What an expression leads to it refers to. -/
theorem mem_refs_of_leftRefs {name : String} (h : name ∈ e.leftRefs rule) : name ∈ e.refs := by
  induction e using Expr.induct with
  | literal | charClass | any | predicate => cases h
  | ruleRef span called =>
    rw [leftRefs_ruleRef] at h
    rwa [refs_ruleRef]
  | sequence span es ih =>
    induction es with
    | nil => cases h
    | cons e es ihes =>
      rw [leftRefs_sequence_cons] at h
      rw [mem_refs_sequence_cons]
      rcases List.mem_append.mp h with hm | hm
      · exact Or.inl (ih e List.mem_cons_self hm)
      · split at hm
        · cases hm
        · exact Or.inr (ihes (fun e hm => ih e (List.mem_cons_of_mem _ hm)) hm)
  | choice span es ih =>
    obtain ⟨e, hm, hn⟩ := mem_leftRefs_choice.mp h
    exact mem_refs_choice.mpr ⟨e, hm, ih e hm hn⟩
  | wrapped span wrapper body ih =>
    rw [leftRefs_wrapped] at h
    rw [refs_wrapped]
    exact ih h

/-- The more rules consume input, the fewer an expression leads to before it does. -/
theorem leftRefs_subset {rule' : String → Bool}
    (h : ∀ name ∈ e.refs, rule name = true → rule' name = true) :
    e.leftRefs rule' ⊆ e.leftRefs rule := by
  induction e using Expr.induct with
  | literal | charClass | any | predicate => exact List.nil_subset _
  | ruleRef span name =>
    rw [leftRefs_ruleRef, leftRefs_ruleRef]
    exact List.Subset.refl _
  | sequence span es ih =>
    induction es with
    | nil => exact List.nil_subset _
    | cons e es ihes =>
      simp only [mem_refs_sequence_cons] at h
      rw [leftRefs_sequence_cons, leftRefs_sequence_cons]
      intro name hm
      rcases List.mem_append.mp hm with hm | hm
      · exact List.mem_append_left _ (ih e List.mem_cons_self (fun n hn => h n (Or.inl hn)) hm)
      · split at hm
        · cases hm
        · rename_i hc
          have hstill : ¬ e.consumes rule = true := fun hc' =>
            hc (consumes_of_leftRefs hc' fun n hn => h n (Or.inl (mem_refs_of_leftRefs hn)))
          rw [if_neg hstill]
          exact List.mem_append_right _ (ihes (fun e hm => ih e (List.mem_cons_of_mem _ hm))
            (fun n hn => h n (Or.inr hn)) hm)
  | choice span es ih =>
    intro name hm
    obtain ⟨e, he, hn⟩ := mem_leftRefs_choice.mp hm
    refine mem_leftRefs_choice.mpr ⟨e, he, ih e he (fun n hn => ?_) hn⟩
    exact h n (mem_refs_choice.mpr ⟨e, he, hn⟩)
  | wrapped span wrapper body ih =>
    rw [refs_wrapped] at h
    rw [leftRefs_wrapped, leftRefs_wrapped]
    exact ih h

end Expr

namespace Grammar

variable {grammar : Grammar} {options : Options} {rule : String → Bool}

theorem duplicateRule?_of_nodup (h : (grammar.rules.map (·.name)).Nodup) :
    grammar.duplicateRule? = none := by
  have hf (declared rules : List Rule) (hd : ((declared ++ rules).map (·.name)).Nodup) :
      findDuplicate declared rules = none := by
    induction rules generalizing declared with
    | nil => rfl
    | cons rule rules ih =>
      have hnone : declared.find? (·.name == rule.name) = none := by
        rw [List.find?_eq_none]
        intro other hm hname
        rw [List.map_append, List.map_cons] at hd
        refine (List.nodup_append.mp hd).2.2 other.name (List.mem_map_of_mem hm) rule.name
          List.mem_cons_self (beq_iff_eq.mp hname)
      rw [findDuplicate, hnone]
      refine ih (declared ++ [rule]) ?_
      rwa [List.append_assoc]
  exact hf [] grammar.rules h

/-- Of a guarded rule the search sees that it consumes input: the rules on its path differ, as each
leads to the next one. -/
theorem Guarded.ruleConsumes_path (hg : grammar.Guarded rule)
    (hres : ∀ found ∈ grammar.rules, ∀ name ∈ found.expr.refs,
      ∃ id, grammar.ruleIndex? name = some id)
    {depth : Nat} {visiting : List String} {name : String}
    (hlength : visiting.length + depth = grammar.rules.length)
    (hnodup : (name :: visiting).Nodup)
    (hsub : name :: visiting ⊆ grammar.rules.map (·.name))
    (hpath : ∀ passed ∈ visiting, Relation.TransGen (grammar.LeftCalls rule) passed name)
    (hr : rule name = true) : grammar.ruleConsumes depth visiting name = true := by
  induction depth generalizing visiting name with
  | zero =>
    have hle := (hnodup.subperm hsub).length_le
    rw [List.length_cons, List.length_map] at hle
    omega
  | succ depth ih =>
    obtain ⟨found, hf⟩ : ∃ found, grammar.rule? name = some found := by
      obtain ⟨declared, hm, hname⟩ := List.mem_map.mp (hsub List.mem_cons_self)
      refine Option.isSome_iff_exists.mp (List.find?_isSome.mpr ⟨declared, hm, ?_⟩)
      exact beq_iff_eq.mpr hname
    have hm := List.mem_of_find?_eq_some hf
    have hname := name_of_rule? hf
    rw [Grammar.ruleConsumes, if_neg (List.nodup_cons.mp hnodup).1, hf]
    refine Expr.consumes_of_leftRefs (hg.consumes found hm (hname ▸ hr)) fun next hn hr' => ?_
    have hcall : grammar.LeftCalls rule name next := ⟨found, hm, hname, hn⟩
    obtain ⟨id, hi⟩ := hres found hm next (Expr.mem_refs_of_leftRefs hn)
    obtain ⟨called, -, hcalled, hf'⟩ := rule?_of_ruleIndex? hi
    have hpath' : ∀ passed ∈ name :: visiting,
        Relation.TransGen (grammar.LeftCalls rule) passed next :=
      List.forall_mem_cons.mpr ⟨.single hcall, fun passed hp => (hpath passed hp).tail hcall⟩
    have hnew : next ∉ name :: visiting := fun hv => hg.acyclic next (hpath' next hv)
    refine ih ?_ (List.nodup_cons.mpr ⟨hnew, hnodup⟩) (List.cons_subset.mpr ⟨?_, hsub⟩) hpath' hr'
    · rw [List.length_cons]
      omega
    · exact List.mem_map.mpr ⟨called, List.mem_of_find?_eq_some hf', hcalled⟩

theorem Guarded.ruleConsumes (hg : grammar.Guarded rule)
    (hres : ∀ found ∈ grammar.rules, ∀ name ∈ found.expr.refs,
      ∃ id, grammar.ruleIndex? name = some id)
    {name : String} {id : RuleId} (hi : grammar.ruleIndex? name = some id) (hr : rule name = true) :
    grammar.ruleConsumes grammar.rules.length [] name = true := by
  obtain ⟨found, -, hname, hf⟩ := rule?_of_ruleIndex? hi
  refine hg.ruleConsumes_path hres (Nat.zero_add _) (List.nodup_singleton name) ?_ nofun hr
  refine List.cons_subset.mpr ⟨?_, List.nil_subset _⟩
  exact List.mem_map.mpr ⟨found, List.mem_of_find?_eq_some hf, hname⟩

/-- The search for left recursion comes to its end if no rule leads back to itself. -/
theorem Guarded.findLeftRecursion (hg : grammar.Guarded rule)
    (hcalls : ∀ found ∈ grammar.rules,
      found.expr.leftRefs (grammar.ruleConsumes grammar.rules.length []) ⊆
        found.expr.leftRefs rule)
    (depth : Nat) {path : List String} {found : Rule} (hm : found ∈ grammar.rules)
    (hpath : ∀ passed ∈ path, Relation.ReflTransGen (grammar.LeftCalls rule) passed found.name) :
    grammar.findLeftRecursion depth path found.expr = none := by
  induction depth using Nat.strongRecOn generalizing path found with
  | _ depth ih =>
    unfold Grammar.findLeftRecursion
    rw [List.findSome?_eq_none_iff]
    rintro ⟨name, span⟩ hc
    have hcall : grammar.LeftCalls rule found.name name :=
      ⟨found, hm, rfl, hcalls found hm (List.mem_map_of_mem hc)⟩
    dsimp only
    rw [if_neg fun hv => hg.acyclic name (.tail' (hpath name hv) hcall)]
    cases depth with
    | zero => rfl
    | succ depth =>
      refine Option.bind_eq_none_iff.mpr fun next hf => ?_
      have hname := name_of_rule? hf
      refine ih depth (Nat.lt_succ_self depth) (List.mem_of_find?_eq_some hf) ?_
      rw [hname]
      exact List.forall_mem_cons.mpr ⟨.refl, fun passed hp => (hpath passed hp).tail hcall⟩

/-- What the checks see to, `rule` telling of rules that they consume input. -/
structure Checked (grammar : Grammar) (options : Options) (rule : String → Bool) : Prop where
  names : (grammar.rules.map (·.name)).Nodup
  resolved : grammar.Resolved options
  labels : ∀ found ∈ grammar.rules, found.expr.Distinct []
  guarded : grammar.Guarded rule
  repeats : ∀ found ∈ grammar.rules, found.expr.Repeats rule

theorem duplicateLabel?_eq_none_iff :
    grammar.duplicateLabel? = none ↔ ∀ found ∈ grammar.rules, found.expr.Distinct [] := by
  unfold duplicateLabel? firstFailure
  rw [List.findSome?_eq_none_iff]
  refine forall₂_congr fun found hm => ?_
  rcases found.expr.checkLabels_cases [] with ⟨env', hok, -, hd⟩ | ⟨error, he, hd⟩
  · simp only [hok, List.map_nil] at hd ⊢
    exact iff_of_true trivial hd
  · simp only [he, List.map_nil] at hd ⊢
    exact iff_of_false nofun hd

theorem emptyRepetition?_eq_none_iff : grammar.emptyRepetition? = none ↔
    ∀ found ∈ grammar.rules,
      found.expr.Repeats (grammar.ruleConsumes grammar.rules.length []) := by
  unfold emptyRepetition? subterms
  rw [List.findSome?_eq_none_iff]
  constructor
  · intro h found hm part hp body hb
    have hpart := h part (List.mem_flatMap.mpr ⟨found, hm, hp⟩)
    rw [hb] at hpart
    dsimp only at hpart
    split at hpart
    · assumption
    · cases hpart
  · intro h part hp
    obtain ⟨found, hm, hp⟩ := List.mem_flatMap.mp hp
    cases hb : part.asRepetition? with
    | none => rfl
    | some body => exact if_pos (h found hm part hp body hb)

theorem Passing.checked (h : grammar.Passing options) :
    grammar.Checked options (grammar.ruleConsumes grammar.rules.length []) where
  names := nodup_of_duplicateRule? h.duplicateRules
  resolved := resolved_iff.mpr ⟨h.undefinedRules, h.startRules⟩
  labels := duplicateLabel?_eq_none_iff.mp h.duplicateLabels
  guarded := guarded_of_checks h.duplicateRules h.leftRecursion
  repeats := emptyRepetition?_eq_none_iff.mp h.emptyRepetition

theorem Checked.passing (h : grammar.Checked options rule) : grammar.Passing options := by
  have hconsumes (found : Rule) (hm : found ∈ grammar.rules) (name : String)
      (hn : name ∈ found.expr.refs) (hr : rule name = true) :
      grammar.ruleConsumes grammar.rules.length [] name = true := by
    obtain ⟨id, hi⟩ := h.resolved.refs found hm name hn
    exact h.guarded.ruleConsumes h.resolved.refs hi hr
  refine ⟨duplicateRule?_of_nodup h.names, (resolved_iff.mp h.resolved).1,
    (resolved_iff.mp h.resolved).2, duplicateLabel?_eq_none_iff.mpr h.labels, ?_, ?_⟩
  · refine List.findSome?_eq_none_iff.mpr fun found hm => ?_
    refine h.guarded.findLeftRecursion (fun found hm => ?_) _ hm fun passed hp => ?_
    · exact Expr.leftRefs_subset (hconsumes found hm)
    · rw [List.mem_singleton.mp hp]
  · refine emptyRepetition?_eq_none_iff.mpr fun found hm part hp body hb => ?_
    refine Expr.consumes_of_leftRefs (h.repeats found hm part hp body hb) fun name hn hr => ?_
    refine hconsumes found hm name (Expr.mem_refs_of_subterm hp ?_) hr
    obtain ⟨span, wrapper, rfl⟩ := Expr.exists_of_asRepetition? hb
    rw [Expr.refs_wrapped]
    exact Expr.mem_refs_of_leftRefs hn

variable {grammar' : Grammar}

/-- The checks go through where rules do the same, if what may be called instead of a rule is
declared, consumes input if that does, and is led to by it. -/
theorem Checked.of_mimics {Calls : String → String → Prop} (h : grammar.Checked options rule)
    (hmimics : grammar.Mimics Calls grammar')
    (hcalls : ∀ name name', Calls name name' → (rule name = true → rule name' = true) ∧
      Relation.ReflTransGen (grammar.LeftCalls rule) name name')
    (hdeclared : ∀ name name' id, Calls name name' → grammar.ruleIndex? name = some id →
      ∃ id', grammar.ruleIndex? name' = some id') : grammar'.Checked options rule where
  names := hmimics.names ▸ h.names
  resolved := hmimics.resolved h.resolved hdeclared
  labels found' hm' := by
    obtain ⟨found, hm, -, he⟩ := hmimics.exists_rule hm'
    exact he.distinct (h.labels found hm)
  guarded := h.guarded.of_mimics hmimics hcalls
  repeats found' hm' := by
    obtain ⟨found, hm, -, he⟩ := hmimics.exists_rule hm'
    exact he.repeats (fun name name' hc => (hcalls name name' hc).1) (h.repeats found hm)

theorem Checked.of_mimics_eq (h : grammar.Checked options rule)
    (hmimics : grammar.Mimics Eq grammar') : grammar'.Checked options rule := by
  refine h.of_mimics hmimics ?_ ?_
  · rintro name _ rfl
    exact ⟨fun hc => hc, .refl⟩
  · rintro name _ id rfl hi
    exact ⟨id, hi⟩

theorem Checked.redirect (h : grammar.Checked options rule) {proxy : Rule} {target : String}
    (hm : proxy ∈ grammar.rules) (ht : proxy.proxyTarget? = some target) :
    (grammar.redirect proxy.name target).Checked options rule := by
  refine h.of_mimics (mimics_redirect proxy.name target grammar)
    (fun name name' hpast => h.guarded.ledPast hm ht hpast) fun name name' id hpast hi => ?_
  rw [Expr.LedPast] at hpast
  split at hpast
  · obtain ⟨span, he⟩ := eq_of_proxyTarget? ht
    refine h.resolved.refs proxy hm name' ?_
    rw [he, Expr.refs_ruleRef, hpast]
    exact List.mem_singleton_self target
  · exact ⟨id, hpast ▸ hi⟩

end Grammar
end Peg
