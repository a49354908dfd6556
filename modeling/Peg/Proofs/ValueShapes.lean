import Peg.Proofs.LeftRecursion

/-! The shapes of values. What a match gives follows the expression that was matched: terminals give
texts, sequences and repetitions give lists, and what only binds, names or groups gives what is
inside it. Passes may change expressions, but only to ones that give values of the same shape. -/
namespace Peg

variable {α : Type}

namespace Expr

/-- A match of the expression may give the value, going by what `rule` says of the rules that it
refers to. What code makes has no shape. -/
inductive Fits (rule : String → Value α → Prop) : Expr → Value α → Prop where
  | literal (span : Span) (lit : Literal) (text : String) :
      Fits rule (.literal span lit) (.str text)
  | charClass (span : Span) (members : CharClass) (text : String) :
      Fits rule (.charClass span members) (.str text)
  | any (span : Span) (text : String) : Fits rule (.any span) (.str text)
  | ruleRef (span : Span) {name : String} {value : Value α} (h : rule name value) :
      Fits rule (.ruleRef span name) value
  | predicate (span : Span) (negated : Bool) (code : String) :
      Fits rule (.predicate span negated code) .null
  | sequence (span : Span) {es : List Expr} {values : List (Value α)}
      (h : List.Forall₂ (Fits rule) es values) : Fits rule (.sequence span es) (.list values)
  | choice (span : Span) {es : List Expr} {e : Expr} {value : Value α} (hm : e ∈ es)
      (h : Fits rule e value) : Fits rule (.choice span es) value
  | labeled (span : Span) (label : String) {body : Expr} {value : Value α}
      (h : Fits rule body value) : Fits rule (.wrapped span (.labeled label) body) value
  | named (span : Span) (name : String) {body : Expr} {value : Value α}
      (h : Fits rule body value) : Fits rule (.wrapped span (.named name) body) value
  | text (span : Span) (body : Expr) (text : String) :
      Fits rule (.wrapped span .text body) (.str text)
  | missing (span : Span) (body : Expr) : Fits rule (.wrapped span .optional body) .null
  | optional (span : Span) {body : Expr} {value : Value α} (h : Fits rule body value) :
      Fits rule (.wrapped span .optional body) value
  | zeroOrMore (span : Span) {body : Expr} {values : List (Value α)}
      (h : ∀ value ∈ values, Fits rule body value) :
      Fits rule (.wrapped span .zeroOrMore body) (.list values)
  | oneOrMore (span : Span) {body : Expr} {values : List (Value α)} (hne : values ≠ [])
      (h : ∀ value ∈ values, Fits rule body value) :
      Fits rule (.wrapped span .oneOrMore body) (.list values)
  | group (span : Span) {body : Expr} {value : Value α} (h : Fits rule body value) :
      Fits rule (.wrapped span .group body) value
  | followedBy (span : Span) (body : Expr) : Fits rule (.wrapped span .followedBy body) .null
  | notFollowedBy (span : Span) (body : Expr) : Fits rule (.wrapped span .notFollowedBy body) .null

variable {rule rule' : String → Value α → Prop} {span span' : Span} {value : Value α}

theorem fits_sequence {es : List Expr} : (sequence span es).Fits rule value ↔
    ∃ values, value = .list values ∧ List.Forall₂ (Fits rule) es values := by
  constructor
  · rintro (_ | _)
    rename_i values h
    exact ⟨values, rfl, h⟩
  · rintro ⟨values, rfl, h⟩
    exact .sequence span h

theorem fits_choice {es : List Expr} :
    (choice span es).Fits rule value ↔ ∃ e ∈ es, e.Fits rule value := by
  constructor
  · rintro (_ | _)
    rename_i e hm h
    exact ⟨e, hm, h⟩
  · rintro ⟨e, hm, h⟩
    exact .choice span hm h

theorem fits_group {body : Expr} :
    (wrapped span .group body).Fits rule value ↔ body.Fits rule value :=
  ⟨fun | .group _ h => h, .group span⟩

/-- Wrappers give values of the shapes that they give around something narrower. -/
theorem Fits.wrapped {wrapper : Wrapper} {body body' : Expr}
    (hbody : ∀ value, body'.Fits rule' value → body.Fits rule value)
    (h : (Expr.wrapped span' wrapper body').Fits rule' value) :
    (Expr.wrapped span wrapper body).Fits rule value := by
  cases h with
  | labeled _ label h => exact .labeled span label (hbody value h)
  | named _ name h => exact .named span name (hbody value h)
  | text _ _ text => exact .text span body text
  | missing => exact .missing span body
  | optional _ h => exact .optional span (hbody value h)
  | zeroOrMore _ h => exact .zeroOrMore span fun value hm => hbody value (h value hm)
  | oneOrMore _ hne h => exact .oneOrMore span hne fun value hm => hbody value (h value hm)
  | group _ h => exact .group span (hbody value h)
  | followedBy => exact .followedBy span body
  | notFollowedBy => exact .notFollowedBy span body

/-- What does the same gives values of the same shape, if the rules do that it calls. -/
theorem Mimics.fits {Calls : String → String → Prop} {e e' : Expr} (h : e.Mimics Calls e')
    (hcalls : ∀ name name' value, Calls name name' → rule' name' value → rule name value)
    {value : Value α} (hv : e'.Fits rule' value) : e.Fits rule value := by
  induction h generalizing value with
  | literal span => cases hv; exact .literal span _ _
  | charClass span => cases hv; exact .charClass span _ _
  | any span => cases hv; exact .any span _
  | predicate span => cases hv; exact .predicate span _ _
  | ruleRef span span' name name' hc =>
    cases hv with
    | ruleRef _ hv => exact .ruleRef span (hcalls name name' value hc hv)
  | sequence_nil span =>
    obtain ⟨values, rfl, hvs⟩ := fits_sequence.mp hv
    cases hvs
    exact .sequence span .nil
  | sequence_cons span span' e e' es es' _ _ ihe ihes =>
    obtain ⟨values, rfl, hvs⟩ := fits_sequence.mp hv
    obtain ⟨first, rest, hfirst, hrest, rfl⟩ := List.forall₂_cons_left_iff.mp hvs
    obtain ⟨_, ⟨⟩, hes⟩ := fits_sequence.mp (ihes (.sequence span' hrest))
    exact .sequence span (.cons (ihe hfirst) hes)
  | choice_nil =>
    obtain ⟨e, hm, -⟩ := fits_choice.mp hv
    cases hm
  | choice_cons span span' e e' es es' _ _ ihe ihes =>
    rw [fits_choice, List.exists_mem_cons_iff] at hv ⊢
    rcases hv with hv | hv
    · exact Or.inl (ihe hv)
    · exact Or.inr (fits_choice.mp (ihes (fits_choice.mpr hv)))
  | choice_splice span span' inner e es alternatives es' _ _ ihe ihes =>
    obtain ⟨part, hm, hv⟩ := fits_choice.mp hv
    rw [fits_choice, List.exists_mem_cons_iff]
    rcases List.mem_append.mp hm with hm | hm
    · exact Or.inl (ihe (.choice inner hm hv))
    · exact Or.inr (fits_choice.mp (ihes (.choice span' hm hv)))
  | wrapped span span' wrapper e e' _ ih => exact .wrapped (fun _ => ih) hv
  | ungroup span e e' _ _ ih => exact .group span (ih hv)
  | group span' e e' _ _ ih => exact ih (fits_group.mp hv)
  | ungroup_inside span inner wrapper e e' _ _ ih =>
    exact .wrapped (fun _ => .group inner) (ih hv)
  | group_inside span' inner wrapper e e' _ _ ih =>
    exact ih (.wrapped (fun _ => fits_group.mp) hv)
  | unname_inside span inner name name' e e' _ ih =>
    exact .wrapped (fun _ => .named inner name') (ih hv)

def isAction : Expr → Bool
  | wrapped _ (.action _) _ => true
  | _ => false

def ActionFree (e : Expr) : Prop := ∀ part ∈ e.subterms, part.isAction = false

instance (e : Expr) : Decidable e.ActionFree :=
  inferInstanceAs (Decidable (∀ part ∈ e.subterms, part.isAction = false))

theorem actionFree_sequence {es : List Expr} :
    (sequence span es).ActionFree ↔ ∀ e ∈ es, e.ActionFree := by
  rw [ActionFree, subterms, List.forall_mem_cons, forall_mem_subtermsOfAll]
  exact and_iff_right rfl

theorem actionFree_choice {es : List Expr} :
    (choice span es).ActionFree ↔ ∀ e ∈ es, e.ActionFree := by
  rw [ActionFree, subterms, List.forall_mem_cons, forall_mem_subtermsOfAll]
  exact and_iff_right rfl

theorem actionFree_wrapped {wrapper : Wrapper} {body : Expr} :
    (Expr.wrapped span wrapper body).ActionFree ↔
      (∀ code, wrapper ≠ .action code) ∧ body.ActionFree := by
  rw [ActionFree, subterms, List.forall_mem_cons]
  refine and_congr_left' ⟨?_, fun h => ?_⟩
  · rintro h code rfl
    cases h
  · cases wrapper with
    | action code => exact absurd rfl (h code)
    | _ => rfl

theorem Mimics.actionFree {Calls : String → String → Prop} {e e' : Expr} (h : e.Mimics Calls e')
    (ha : e.ActionFree) : e'.ActionFree := by
  induction h with
  | literal | charClass | any | predicate | ruleRef =>
    exact List.forall_mem_singleton.mpr rfl
  | sequence_nil => exact actionFree_sequence.mpr (List.forall_mem_nil _)
  | choice_nil => exact actionFree_choice.mpr (List.forall_mem_nil _)
  | sequence_cons span span' e e' es es' _ _ ihe ihes =>
    obtain ⟨hfirst, hrest⟩ := List.forall_mem_cons.mp (actionFree_sequence.mp ha)
    exact actionFree_sequence.mpr (List.forall_mem_cons.mpr
      ⟨ihe hfirst, actionFree_sequence.mp (ihes (actionFree_sequence.mpr hrest))⟩)
  | choice_cons span span' e e' es es' _ _ ihe ihes =>
    obtain ⟨hfirst, hrest⟩ := List.forall_mem_cons.mp (actionFree_choice.mp ha)
    exact actionFree_choice.mpr (List.forall_mem_cons.mpr
      ⟨ihe hfirst, actionFree_choice.mp (ihes (actionFree_choice.mpr hrest))⟩)
  | choice_splice span span' inner e es alternatives es' _ _ ihe ihes =>
    obtain ⟨hfirst, hrest⟩ := List.forall_mem_cons.mp (actionFree_choice.mp ha)
    exact actionFree_choice.mpr (List.forall_mem_append.mpr ⟨actionFree_choice.mp (ihe hfirst),
      actionFree_choice.mp (ihes (actionFree_choice.mpr hrest))⟩)
  | wrapped span span' wrapper e e' _ ih =>
    obtain ⟨hw, hbody⟩ := actionFree_wrapped.mp ha
    exact actionFree_wrapped.mpr ⟨hw, ih hbody⟩
  | ungroup span e e' _ _ ih => exact ih (actionFree_wrapped.mp ha).2
  | group span' e e' _ _ ih => exact actionFree_wrapped.mpr ⟨nofun, ih ha⟩
  | ungroup_inside span inner wrapper e e' _ _ ih =>
    obtain ⟨hw, hbody⟩ := actionFree_wrapped.mp ha
    exact ih (actionFree_wrapped.mpr ⟨hw, (actionFree_wrapped.mp hbody).2⟩)
  | group_inside span' inner wrapper e e' _ _ ih =>
    obtain ⟨hw, hbody⟩ := actionFree_wrapped.mp (ih ha)
    exact actionFree_wrapped.mpr ⟨hw, actionFree_wrapped.mpr ⟨nofun, hbody⟩⟩
  | unname_inside span inner name name' e e' _ ih =>
    obtain ⟨hw, hbody⟩ := actionFree_wrapped.mp ha
    exact ih (actionFree_wrapped.mpr ⟨hw, (actionFree_wrapped.mp hbody).2⟩)

end Expr

namespace Grammar

/-- A match of the first rule called `name` may give the value: it has the shape of the expression
of the rule, and so on where that refers to rules. -/
inductive RuleFits (grammar : Grammar) : String → Value α → Prop where
  | rule {name : String} {rule : Rule} {value : Value α} (hr : grammar.rule? name = some rule)
      (h : rule.expr.Fits (RuleFits grammar) value) : RuleFits grammar name value

variable {grammar : Grammar}

/-- No other relation that rules agree with holds of fewer values. -/
theorem RuleFits.least {P : String → Value α → Prop}
    (hrule : ∀ name rule value, grammar.rule? name = some rule → rule.expr.Fits P value →
      P name value) {name : String} {value : Value α} (h : grammar.RuleFits name value) :
    P name value := by
  -- By induction on the derivation: all constructors but the one for rules are the same on both
  -- sides.
  refine @RuleFits.rec α grammar (fun name value _ => P name value)
    (fun e value _ => e.Fits P value) (fun es values _ => List.Forall₂ (Expr.Fits P) es values)
    ?rule ?literal ?charClass ?any ?ruleRef ?predicate ?sequence ?choice ?labeled ?named ?text
    ?missing ?optional ?zeroOrMore ?oneOrMore ?group ?followedBy ?notFollowedBy ?nil ?cons _ _ h
  case rule => exact fun hr _ he => hrule _ _ _ hr he
  case literal => exact .literal
  case charClass => exact .charClass
  case any => exact .any
  case ruleRef => exact fun span _ _ _ hp => .ruleRef span hp
  case predicate => exact .predicate
  case sequence => exact fun span _ _ _ hes => .sequence span hes
  case choice => exact fun span _ _ _ hm _ he => .choice span hm he
  case labeled => exact fun span label _ _ _ he => .labeled span label he
  case named => exact fun span name _ _ _ he => .named span name he
  case text => exact .text
  case missing => exact .missing
  case optional => exact fun span _ _ _ he => .optional span he
  case zeroOrMore => exact fun span _ _ _ he => .zeroOrMore span he
  case oneOrMore => exact fun span _ _ hne _ he => .oneOrMore span hne he
  case group => exact fun span _ _ _ he => .group span he
  case followedBy => exact .followedBy
  case notFollowedBy => exact .notFollowedBy
  case nil => exact .nil
  case cons => exact fun _ _ he hes => .cons he hes

/-- Rules that do the same, one by one, give values of the same shape, if what may be called instead
of a rule gives no others. -/
theorem Mimics.ruleFits {Calls : String → String → Prop} {grammar' : Grammar}
    (h : grammar.Mimics Calls grammar')
    (hcalls : ∀ name name' (value : Value α), Calls name name' → grammar.RuleFits name' value →
      grammar.RuleFits name value) {name : String} {value : Value α}
    (hv : grammar'.RuleFits name value) : grammar.RuleFits name value := by
  refine hv.least fun name rule' value hr he => ?_
  obtain ⟨rule, hr, hm⟩ := h.rule? hr
  exact .rule hr (hm.fits hcalls he)

theorem ruleFits_simplify {flattenChoices : Bool} {name : String} {value : Value α}
    (hv : (grammar.simplify flattenChoices).RuleFits name value) : grammar.RuleFits name value :=
  (mimics_simplify flattenChoices grammar).ruleFits (fun _ _ _ hn h => hn ▸ h) hv

/-- A proxy gives what its target gives. -/
theorem ruleFits_redirect (hn : (grammar.rules.map (·.name)).Nodup) {proxy : Rule}
    {target : String} (hm : proxy ∈ grammar.rules) (ht : proxy.proxyTarget? = some target)
    {name : String} {value : Value α}
    (hv : (grammar.redirect proxy.name target).RuleFits name value) :
    grammar.RuleFits name value := by
  obtain ⟨span, he⟩ := eq_of_proxyTarget? ht
  refine (mimics_redirect proxy.name target grammar).ruleFits
    (fun name name' value hpast h => ?_) hv
  rw [Expr.LedPast] at hpast
  split at hpast
  · rename_i hname
    refine hname ▸ .rule (rule?_of_mem hn hm) ?_
    rw [he]
    exact .ruleRef span (hpast ▸ h)
  · exact hpast ▸ h

theorem ruleFits_drop (hn : (grammar.rules.map (·.name)).Nodup) {rules : List Rule}
    (hs : rules.Sublist grammar.rules) {name : String} {value : Value α}
    (hv : ({ grammar with rules := rules } : Grammar).RuleFits name value) :
    grammar.RuleFits name value := by
  refine hv.least fun name rule value hr he => ?_
  have hname := name_of_rule? hr
  exact .rule (hname ▸ rule?_of_mem hn (hs.subset (List.mem_of_find?_eq_some hr))) he

/-- What a grammar may be changed into without giving values of other shapes. -/
structure KeepsShapes (α : Type) (grammar grammar' : Grammar) : Prop where
  names : (grammar'.rules.map (·.name)).Nodup
  ruleFits : ∀ name (value : Value α), grammar'.RuleFits name value → grammar.RuleFits name value

/-- Passes bring in no values of other shapes. -/
theorem keepsShapes_of_leaves {options : Options} {passes : List Pass} {left : Grammar}
    (hl : grammar.Leaves passes options left) (hn : (grammar.rules.map (·.name)).Nodup) :
    grammar.KeepsShapes α left := by
  refine leaves_preserves (P := grammar.KeepsShapes α) hl ⟨hn, fun _ _ hv => hv⟩
    (fun middle names h => ?_) fun middle flattenChoices h => ⟨?_, fun name value hv => ?_⟩
  · refine removeProxies_preserves (P := grammar.KeepsShapes α) names
      (fun middle index proxy target hi ht h => ⟨?_, fun name value hv => ?_⟩)
      (fun middle rules hs h => ⟨?_, fun name value hv => ?_⟩) h
    · rw [(mimics_redirect proxy.name target middle).names]
      exact h.names
    · exact h.ruleFits name value
        (ruleFits_redirect h.names (List.mem_of_getElem? hi) ht hv)
    · exact (hs.map (·.name)).nodup h.names
    · exact h.ruleFits name value (ruleFits_drop h.names hs hv)
  · rw [(mimics_simplify flattenChoices middle).names]
    exact h.names
  · exact h.ruleFits name value (ruleFits_simplify hv)

def ActionFree (grammar : Grammar) : Prop := ∀ rule ∈ grammar.rules, rule.expr.ActionFree

instance (grammar : Grammar) : Decidable grammar.ActionFree :=
  inferInstanceAs (Decidable (∀ rule ∈ grammar.rules, rule.expr.ActionFree))

theorem Mimics.actionFree {Calls : String → String → Prop} {grammar' : Grammar}
    (h : grammar.Mimics Calls grammar') (ha : grammar.ActionFree) : grammar'.ActionFree := by
  intro rule' hm
  obtain ⟨rule, hm, -, he⟩ := h.exists_rule hm
  exact he.actionFree (ha rule hm)

/-- Passes bring no actions in. -/
theorem actionFree_of_leaves {options : Options} {passes : List Pass} {left : Grammar}
    (hl : grammar.Leaves passes options left) (ha : grammar.ActionFree) : left.ActionFree := by
  refine leaves_preserves hl ha (fun grammar names ha => ?_)
    fun grammar flattenChoices ha => (mimics_simplify flattenChoices grammar).actionFree ha
  refine removeProxies_preserves names (fun grammar _ rule target _ _ ha => ?_)
    (fun grammar rules hs ha rule hm => ha rule (hs.subset hm)) ha
  exact (mimics_redirect rule.name target grammar).actionFree ha

end Grammar
end Peg
