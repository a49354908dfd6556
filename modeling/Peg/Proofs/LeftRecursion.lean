import Mathlib.Data.Finset.Card
import Mathlib.Logic.Relation
import Peg.Proofs.Simplification

/-! Grammars without left recursion. If the check finds none, the rules that may be reached from a
rule before input is consumed do not include it; and neither removing proxies nor simplifying
changes that, as references are only led past rules that they would pass anyway. -/
namespace Peg

namespace Expr

/-- The rules that may be entered before input is consumed. -/
def leftRefs (rule : String → Bool) (e : Expr) : List String :=
  (e.leftCalls (consumes rule)).map (·.1)

variable {rule rule' : String → Bool}

theorem leftRefs_ruleRef (span : Span) (name : String) :
    (ruleRef span name).leftRefs rule = [name] := by
  rw [leftRefs, leftCalls]
  rfl

theorem leftRefs_wrapped (span : Span) (wrapper : Wrapper) (body : Expr) :
    (wrapped span wrapper body).leftRefs rule = body.leftRefs rule := by
  rw [leftRefs, leftCalls]
  rfl

theorem leftRefs_sequence_cons (span : Span) (e : Expr) (es : List Expr) :
    (sequence span (e :: es)).leftRefs rule = e.leftRefs rule ++
      if e.consumes rule then [] else (sequence span es).leftRefs rule := by
  rw [leftRefs, leftCalls, leftCallsOfElements, List.map_append, leftRefs, leftRefs, leftCalls]
  split <;> rfl

theorem mem_leftRefs_choice {span : Span} {es : List Expr} {name : String} :
    name ∈ (choice span es).leftRefs rule ↔ ∃ e ∈ es, name ∈ e.leftRefs rule := by
  induction es with
  | nil =>
    rw [leftRefs, leftCalls, leftCallsOfAlternatives]
    exact ⟨fun h => (nomatch h), fun ⟨_, h, _⟩ => (nomatch h)⟩
  | cons e es ih =>
    rw [leftRefs, leftCalls] at ih ⊢
    rw [leftCallsOfAlternatives, List.map_append, List.mem_append, ih, List.exists_mem_cons_iff]
    rfl

theorem anyConsumes_iff {es : List Expr} :
    anyConsumes rule es = true ↔ ∃ e ∈ es, e.consumes rule = true := by
  induction es with
  | nil => exact ⟨fun h => (nomatch h), fun ⟨_, h, _⟩ => (nomatch h)⟩
  | cons e es ih => rw [anyConsumes, Bool.or_eq_true, ih, List.exists_mem_cons_iff]

theorem allConsume_iff {es : List Expr} :
    allConsume rule es = true ↔ ∀ e ∈ es, e.consumes rule = true := by
  induction es with
  | nil => exact ⟨fun _ e h => (nomatch h), fun _ => rfl⟩
  | cons e es ih => rw [allConsume, Bool.and_eq_true, ih, List.forall_mem_cons]

/-- Of the rules that an expression refers to, those matter for what it consumes that it leads to
before. -/
theorem consumes_of_leftRefs {e : Expr} (he : e.consumes rule = true)
    (h : ∀ name ∈ e.leftRefs rule, rule name = true → rule' name = true) :
    e.consumes rule' = true := by
  induction e using Expr.induct with
  | literal | charClass | any => exact he
  | predicate => cases he
  | ruleRef span name =>
    rw [leftRefs_ruleRef] at h
    exact h name (List.mem_singleton_self name) he
  | sequence span es ih =>
    induction es with
    | nil => cases he
    | cons e es ihes =>
      rw [leftRefs_sequence_cons] at h
      refine (Bool.or_eq_true _ _).mpr ?_
      by_cases hc : e.consumes rule = true
      · exact Or.inl (ih e List.mem_cons_self hc fun name hm => h name (List.mem_append_left _ hm))
      · refine Or.inr (ihes (fun e hm => ih e (List.mem_cons_of_mem _ hm)) ?_ fun name hm => ?_)
        · exact ((Bool.or_eq_true _ _).mp he).resolve_left hc
        · exact h name (List.mem_append_right _ (by rwa [if_neg hc]))
  | choice span es ih =>
    refine allConsume_iff.mpr fun e hm => ih e hm (allConsume_iff.mp he e hm) fun name hn => ?_
    exact h name (mem_leftRefs_choice.mpr ⟨e, hm, hn⟩)
  | wrapped span wrapper body ih =>
    rw [leftRefs_wrapped] at h
    cases wrapper with
    | optional | zeroOrMore | followedBy | notFollowedBy => cases he
    | _ => exact ih he h

/-- The more rules consume input, the more expressions do. -/
theorem consumes_mono (h : ∀ name, rule name = true → rule' name = true) {e : Expr}
    (he : e.consumes rule = true) : e.consumes rule' = true :=
  consumes_of_leftRefs he fun name _ => h name

end Expr

namespace Grammar

/-- From the rule called `a`, the rule called `b` may be entered before input is consumed. -/
def LeftCalls (grammar : Grammar) (rule : String → Bool) (a b : String) : Prop :=
  ∃ found ∈ grammar.rules, found.name = a ∧ b ∈ found.expr.leftRefs rule

/-- The rules of which `rule` says so always consume input, going by what it says; and no rule leads
back to itself before any is consumed. -/
structure Guarded (grammar : Grammar) (rule : String → Bool) : Prop where
  consumes : ∀ found ∈ grammar.rules, rule found.name = true → found.expr.consumes rule = true
  acyclic : ∀ name, ¬ Relation.TransGen (grammar.LeftCalls rule) name name

variable {grammar : Grammar}

/-- Rules that consume input on paths that are cut off early do so on longer ones. -/
theorem ruleConsumes_mono {depth depth' : Nat} {visiting visiting' : List String} {name : String}
    (hd : depth ≤ depth') (hv : visiting' ⊆ visiting)
    (h : grammar.ruleConsumes depth visiting name = true) :
    grammar.ruleConsumes depth' visiting' name = true := by
  induction depth generalizing depth' visiting visiting' name with
  | zero => cases h
  | succ depth ih =>
    obtain ⟨depth', rfl⟩ := Nat.exists_eq_add_of_le' (Nat.le_trans (Nat.le_add_left 1 depth) hd)
    rw [ruleConsumes] at h ⊢
    split at h
    · cases h
    · rename_i hn
      rw [if_neg fun hm => hn (hv hm)]
      split at h
      · cases h
      · exact Expr.consumes_mono
          (fun n => ih (Nat.le_of_succ_le_succ hd) (List.cons_subset_cons _ hv)) h

/-- Names of rules are not declared twice. -/
theorem nodup_of_duplicateRule? (h : grammar.duplicateRule? = none) :
    (grammar.rules.map (·.name)).Nodup := by
  have hf (declared rules : List Rule) (hd : findDuplicate declared rules = none) :
      (rules.map (·.name)).Nodup ∧ ∀ a ∈ declared, ∀ b ∈ rules, a.name ≠ b.name := by
    induction rules generalizing declared with
    | nil => exact ⟨List.nodup_nil, fun _ _ b hb => nomatch hb⟩
    | cons rule rules ih =>
      rw [findDuplicate] at hd
      split at hd
      · cases hd
      · rename_i hn
        obtain ⟨hnodup, hne⟩ := ih _ hd
        refine ⟨List.nodup_cons.mpr ⟨fun hm => ?_, hnodup⟩, fun a ha b hb => ?_⟩
        · obtain ⟨b, hb, he⟩ := List.mem_map.mp hm
          exact hne rule (List.mem_append_right _ List.mem_cons_self) b hb he.symm
        · rcases List.mem_cons.mp hb with rfl | hb
          · have hq := List.find?_eq_none.mp hn a ha
            rw [beq_iff_eq] at hq
            exact hq
          · exact hne a (List.mem_append_left _ ha) b hb
  exact (hf [] grammar.rules h).1

theorem name_of_rule? {name : String} {found : Rule} (h : grammar.rule? name = some found) :
    found.name = name := by
  have hname := List.find?_some h
  rwa [beq_iff_eq] at hname

theorem rule?_of_mem (hn : (grammar.rules.map (·.name)).Nodup) {found : Rule}
    (hm : found ∈ grammar.rules) : grammar.rule? found.name = some found := by
  cases hf : grammar.rule? found.name with
  | none =>
    have hq := List.find?_eq_none.mp hf found hm
    rw [beq_self_eq_true] at hq
    exact absurd rfl hq
  | some other =>
    have hmem := List.mem_of_find?_eq_some hf
    rw [List.inj_on_of_nodup_map hn hmem hm (name_of_rule? hf)]

/-- What keeps the rules apart that are entered one from the other: the names on `path` are those of
different rules, and the search from there on has come to its end without finding one again. -/
def Free (grammar : Grammar) (path : List String) (e : Expr) : Prop :=
  ∃ depth, path.Nodup ∧ path ⊆ grammar.rules.map (·.name) ∧
    path.length + depth = grammar.rules.length + 1 ∧
    grammar.findLeftRecursion depth path e = none

theorem free_of_leftRecursion? (h : grammar.leftRecursion? = none) {found : Rule}
    (hm : found ∈ grammar.rules) : grammar.Free [found.name] found.expr :=
  ⟨grammar.rules.length, List.nodup_singleton _,
    List.cons_subset.mpr ⟨List.mem_map_of_mem hm, List.nil_subset _⟩, Nat.add_comm _ _,
    List.findSome?_eq_none_iff.mp h found hm⟩

/-- The search ends only where every rule entered is a new one, and goes on in it. -/
theorem Free.step {path : List String} {e : Expr} (h : grammar.Free path e) {name : String}
    (hm : name ∈ e.leftRefs (grammar.ruleConsumes grammar.rules.length [])) :
    name ∉ path ∧ ∀ found, grammar.rule? name = some found →
      grammar.Free (name :: path) found.expr := by
  obtain ⟨depth, hnodup, hsub, hlen, hnone⟩ := h
  obtain ⟨⟨called, span⟩, hc, rfl⟩ := List.mem_map.mp hm
  unfold findLeftRecursion at hnone
  have hv := List.findSome?_eq_none_iff.mp hnone _ hc
  dsimp only at hv
  split at hv
  · cases hv
  · rename_i hnew
    refine ⟨hnew, fun found hf => ?_⟩
    have hname := name_of_rule? hf
    have hnodup' := List.nodup_cons.mpr ⟨hnew, hnodup⟩
    have hsub' : called :: path ⊆ grammar.rules.map (·.name) := List.cons_subset.mpr
      ⟨List.mem_map.mpr ⟨found, List.mem_of_find?_eq_some hf, hname⟩, hsub⟩
    cases depth with
    | zero =>
      -- A path of different rules is not longer than their number.
      have hle := (hnodup'.subperm hsub').length_le
      rw [List.length_cons, List.length_map] at hle
      omega
    | succ depth =>
      dsimp only at hv hf
      rw [hf] at hv
      exact ⟨depth, hnodup', hsub', by rw [List.length_cons]; omega, hv⟩

/-- Nothing is found on the path on which it is searched for. -/
theorem not_mem_of_transGen (hnodup : (grammar.rules.map (·.name)).Nodup) {a b : String}
    (h : Relation.TransGen (grammar.LeftCalls (grammar.ruleConsumes grammar.rules.length [])) a b)
    {path : List String}
    (hfree : ∀ found ∈ grammar.rules, found.name = a → grammar.Free path found.expr) :
    b ∉ path := by
  -- The path grows at the front of the chain, by the rule that is entered there.
  induction h using Relation.TransGen.head_induction_on generalizing path with
  | single hl =>
    obtain ⟨found, hm, hn, hb⟩ := hl
    exact ((hfree found hm hn).step hb).1
  | @head a c hl _ ih =>
    obtain ⟨found, hm, hn, hc⟩ := hl
    have hnext : ∀ next ∈ grammar.rules, next.name = c → grammar.Free (c :: path) next.expr :=
      fun next hm' hn' => ((hfree found hm hn).step hc).2 next (hn' ▸ rule?_of_mem hnodup hm')
    exact fun hb => ih hnext (List.mem_cons_of_mem _ hb)

/-- What passes the checks has no left recursion. -/
theorem guarded_of_checks (hd : grammar.duplicateRule? = none)
    (hl : grammar.leftRecursion? = none) :
    grammar.Guarded (grammar.ruleConsumes grammar.rules.length []) := by
  have hnodup := nodup_of_duplicateRule? hd
  refine ⟨fun found hm hc => ?_, fun name ht => ?_⟩
  · cases hr : grammar.rules.length with
    | zero => rw [hr] at hc; cases hc
    | succ depth =>
      rw [hr, ruleConsumes, if_neg List.not_mem_nil, rule?_of_mem hnodup hm] at hc
      refine Expr.consumes_mono (fun n h => ?_) hc
      exact ruleConsumes_mono (Nat.le_succ depth) (List.nil_subset _) h
  · have hfree : ∀ found ∈ grammar.rules, found.name = name → grammar.Free [name] found.expr :=
      fun found hm hn => hn ▸ free_of_leftRecursion? hl hm
    exact not_mem_of_transGen hnodup ht hfree (List.mem_singleton_self name)

end Grammar

/-- `e'` may stand for `e`: it consumes input if `e` does, and before that it enters only rules that
`e` leads to. -/
structure Expr.Narrows (rule : String → Bool) (calls : String → String → Prop) (e e' : Expr) :
    Prop where
  consumes : e.consumes rule = true → e'.consumes rule = true
  leads : ∀ name ∈ e'.leftRefs rule, ∃ first ∈ e.leftRefs rule,
    Relation.ReflTransGen calls first name

namespace Expr

variable {rule : String → Bool} {calls : String → String → Prop} {e e' : Expr}

theorem Narrows.of_eq (hc : e'.consumes rule = e.consumes rule)
    (hl : e'.leftRefs rule = e.leftRefs rule) : e.Narrows rule calls e' :=
  ⟨fun h => hc.trans h, fun name hm => ⟨name, hl ▸ hm, .refl⟩⟩

theorem Narrows.trans {e'' : Expr} (h : e.Narrows rule calls e')
    (h' : e'.Narrows rule calls e'') : e.Narrows rule calls e'' := by
  refine ⟨fun hc => h'.consumes (h.consumes hc), fun name hm => ?_⟩
  obtain ⟨middle, hm, hr'⟩ := h'.leads name hm
  obtain ⟨first, hm, hr⟩ := h.leads middle hm
  exact ⟨first, hm, hr.trans hr'⟩

theorem Narrows.sequence_cons {span span' : Span} {es es' : List Expr}
    (hfirst : e.Narrows rule calls e')
    (hrest : (sequence span es).Narrows rule calls (sequence span' es')) :
    (sequence span (e :: es)).Narrows rule calls (sequence span' (e' :: es')) := by
  refine ⟨fun hc => ?_, fun name hm => ?_⟩
  · rcases (Bool.or_eq_true _ _).mp hc with hc | hc
    · exact (Bool.or_eq_true _ _).mpr (Or.inl (hfirst.consumes hc))
    · exact (Bool.or_eq_true _ _).mpr (Or.inr (hrest.consumes hc))
  · rw [leftRefs_sequence_cons] at hm ⊢
    rcases List.mem_append.mp hm with hm | hm
    · obtain ⟨first, hm, hr⟩ := hfirst.leads name hm
      exact ⟨first, List.mem_append_left _ hm, hr⟩
    · split at hm
      · cases hm
      · rename_i hn
        obtain ⟨first, hm, hr⟩ := hrest.leads name hm
        rw [if_neg fun hc => hn (hfirst.consumes hc)]
        exact ⟨first, List.mem_append_right _ hm, hr⟩

theorem Narrows.choice_splice {span span' inner : Span} {es alternatives es' : List Expr}
    (hfirst : e.Narrows rule calls (choice inner alternatives))
    (hrest : (choice span es).Narrows rule calls (choice span' es')) :
    (choice span (e :: es)).Narrows rule calls (choice span' (alternatives ++ es')) := by
  refine ⟨fun hc => allConsume_iff.mpr (List.forall_mem_append.mpr ?_), fun name hm => ?_⟩
  · obtain ⟨hc, hcs⟩ := (Bool.and_eq_true _ _).mp hc
    exact ⟨allConsume_iff.mp (hfirst.consumes hc), allConsume_iff.mp (hrest.consumes hcs)⟩
  · obtain ⟨part, hp, hn⟩ := mem_leftRefs_choice.mp hm
    rcases List.mem_append.mp hp with hp | hp
    · obtain ⟨first, hf, hr⟩ := hfirst.leads name (mem_leftRefs_choice.mpr ⟨part, hp, hn⟩)
      exact ⟨first, mem_leftRefs_choice.mpr ⟨e, List.mem_cons_self, hf⟩, hr⟩
    · obtain ⟨first, hf, hr⟩ := hrest.leads name (mem_leftRefs_choice.mpr ⟨part, hp, hn⟩)
      obtain ⟨part', hp', hf⟩ := mem_leftRefs_choice.mp hf
      exact ⟨first, mem_leftRefs_choice.mpr ⟨part', List.mem_cons_of_mem _ hp', hf⟩, hr⟩

theorem Narrows.wrapped (span span' : Span) (wrapper : Wrapper) (h : e.Narrows rule calls e') :
    (wrapped span wrapper e).Narrows rule calls (wrapped span' wrapper e') := by
  refine ⟨fun hc => ?_, fun name hm => ?_⟩
  · cases wrapper with
    | optional | zeroOrMore | followedBy | notFollowedBy => cases hc
    | _ => exact h.consumes hc
  · rw [leftRefs_wrapped] at hm ⊢
    exact h.leads name hm

/-- What does the same may stand for an expression, if what may be called instead of a rule consumes
input if that does, and is led to by it. -/
theorem Mimics.narrows {Calls : String → String → Prop} (h : e.Mimics Calls e')
    (hcalls : ∀ name name', Calls name name' →
      (rule name = true → rule name' = true) ∧ Relation.ReflTransGen calls name name') :
    e.Narrows rule calls e' := by
  induction h with
  | literal | charClass | any | predicate | sequence_nil | choice_nil => exact .of_eq rfl rfl
  | ruleRef span span' name name' hc =>
    refine ⟨(hcalls name name' hc).1, fun called hm => ?_⟩
    rw [leftRefs_ruleRef, List.mem_singleton] at hm
    rw [hm, leftRefs_ruleRef]
    exact ⟨name, List.mem_singleton_self name, (hcalls name name' hc).2⟩
  | sequence_cons span span' e e' es es' _ _ ihe ihes => exact ihe.sequence_cons ihes
  | choice_cons span span' e e' es es' _ _ ihe ihes =>
    have hsingle : e'.Narrows rule calls (Expr.choice span' [e']) := by
      refine .of_eq (Bool.and_true _) ?_
      have hnil : leftCallsOfAlternatives (consumes rule) [] = [] := rfl
      rw [leftRefs, leftCalls, leftCallsOfAlternatives, hnil, List.append_nil, leftRefs]
    exact (ihe.trans hsingle).choice_splice ihes
  | choice_splice span span' inner e es alternatives es' _ _ ihe ihes =>
    exact ihe.choice_splice ihes
  | wrapped span span' wrapper e e' _ ih => exact ih.wrapped span span' wrapper
  | ungroup span e e' _ _ ih =>
    have hbody : (Expr.wrapped span .group e).Narrows rule calls e :=
      .of_eq rfl (leftRefs_wrapped span .group e).symm
    exact hbody.trans ih
  | group span' e e' _ _ ih => exact ih.trans (.of_eq rfl (leftRefs_wrapped span' .group e'))
  | ungroup_inside span inner wrapper e e' _ _ ih =>
    have hbody : (Expr.wrapped inner .group e).Narrows rule calls e :=
      .of_eq rfl (leftRefs_wrapped inner .group e).symm
    exact (hbody.wrapped span span wrapper).trans ih
  | group_inside span' inner wrapper e e' _ _ ih =>
    have hbody : e'.Narrows rule calls (Expr.wrapped inner .group e') :=
      .of_eq rfl (leftRefs_wrapped inner .group e')
    exact ih.trans (hbody.wrapped span' span' wrapper)
  | unname_inside span inner name name' e e' _ ih =>
    have hbody : (Expr.wrapped inner (.named name') e).Narrows rule calls e :=
      .of_eq rfl (leftRefs_wrapped inner (.named name') e).symm
    exact (hbody.wrapped span span (.named name)).trans ih

end Expr

namespace Grammar

variable {grammar grammar' : Grammar} {rule : String → Bool}

/-- A grammar has no left recursion if its rules do what those of one do that has none, and what may
be called instead of a rule consumes input if that does, and is led to by it. -/
theorem Guarded.of_mimics {Calls : String → String → Prop} (h : grammar.Guarded rule)
    (hmimics : grammar.Mimics Calls grammar')
    (hcalls : ∀ name name', Calls name name' → (rule name = true → rule name' = true) ∧
      Relation.ReflTransGen (grammar.LeftCalls rule) name name') : grammar'.Guarded rule := by
  refine ⟨fun found' hm' hc => ?_, fun name ht => h.acyclic name (ht.lift' id ?_)⟩
  · obtain ⟨found, hm, hname, he⟩ := hmimics.exists_rule hm'
    exact (he.narrows hcalls).consumes (h.consumes found hm (hname ▸ hc))
  · rintro a b ⟨found', hm', hn, hb⟩
    obtain ⟨found, hm, hname, he⟩ := hmimics.exists_rule hm'
    obtain ⟨first, hfirst, hr⟩ := (he.narrows hcalls).leads b hb
    exact .head' ⟨found, hm, hname.symm.trans hn, hfirst⟩ hr

theorem Guarded.drop (h : grammar.Guarded rule) {rules : List Rule}
    (hs : rules.Sublist grammar.rules) : ({ grammar with rules := rules } : Grammar).Guarded rule :=
  ⟨fun found hm => h.consumes found (hs.subset hm), fun name ht => h.acyclic name
    (ht.lift id fun _ _ ⟨found, hm, hn, hb⟩ => ⟨found, hs.subset hm, hn, hb⟩)⟩

theorem eq_of_proxyTarget? {rule : Rule} {target : String} (h : rule.proxyTarget? = some target) :
    ∃ span, rule.expr = .ruleRef span target := by
  obtain ⟨ha, -⟩ := Option.filter_eq_some_iff.mp h
  unfold Expr.asRef? at ha
  split at ha
  · rename_i span name he
    cases ha
    exact ⟨span, he⟩
  · cases ha

/-- A proxy leads to its target at once, and consumes what that consumes. -/
theorem Guarded.ledPast (h : grammar.Guarded rule) {proxy : Rule} {target : String}
    (hm : proxy ∈ grammar.rules) (ht : proxy.proxyTarget? = some target) {name name' : String}
    (hpast : Expr.LedPast proxy.name target name name') :
    (rule name = true → rule name' = true) ∧
      Relation.ReflTransGen (grammar.LeftCalls rule) name name' := by
  obtain ⟨span, he⟩ := eq_of_proxyTarget? ht
  by_cases hn : name = proxy.name
  · rw [Expr.LedPast, if_pos hn] at hpast
    subst hn hpast
    refine ⟨fun hc => ?_, .single ⟨proxy, hm, rfl, ?_⟩⟩
    · have hp := h.consumes proxy hm hc
      rw [he] at hp
      exact hp
    · rw [he, Expr.leftRefs_ruleRef]
      exact List.mem_singleton_self name'
  · rw [Expr.LedPast, if_neg hn] at hpast
    subst hpast
    exact ⟨fun hc => hc, .refl⟩

theorem Guarded.redirect (h : grammar.Guarded rule) {proxy : Rule} {target : String}
    (hm : proxy ∈ grammar.rules) (ht : proxy.proxyTarget? = some target) :
    (grammar.redirect proxy.name target).Guarded rule :=
  h.of_mimics (mimics_redirect proxy.name target grammar) fun _ _ hpast => h.ledPast hm ht hpast

theorem Guarded.simplify (h : grammar.Guarded rule) (flattenChoices : Bool) :
    (grammar.simplify flattenChoices).Guarded rule := by
  refine h.of_mimics (mimics_simplify flattenChoices grammar) ?_
  rintro name _ rfl
  exact ⟨fun hc => hc, .refl⟩

/-- Passes bring no left recursion in. -/
theorem Guarded.of_leaves {options : Options} {passes : List Pass} {left : Grammar}
    (hl : grammar.Leaves passes options left) (h : grammar.Guarded rule) : left.Guarded rule := by
  refine leaves_preserves (P := fun grammar => grammar.Guarded rule) hl h
    (fun grammar names h => ?_) fun grammar flattenChoices h => h.simplify flattenChoices
  refine removeProxies_preserves (P := fun grammar => grammar.Guarded rule) names
    (fun grammar index proxy target hi ht h => ?_) (fun grammar rules hs h => h.drop hs) h
  exact h.redirect (List.mem_of_getElem? hi) ht

/-- Passes leave the names of rules different from each other. -/
theorem nodup_of_leaves {options : Options} {passes : List Pass} {left : Grammar}
    (hl : grammar.Leaves passes options left) (h : (grammar.rules.map (·.name)).Nodup) :
    (left.rules.map (·.name)).Nodup := by
  refine leaves_preserves (P := fun grammar => (grammar.rules.map (·.name)).Nodup) hl h
    (fun grammar names h => ?_) fun grammar flattenChoices h => ?_
  · refine removeProxies_preserves (P := fun grammar => (grammar.rules.map (·.name)).Nodup) names
      (fun grammar index proxy target _ _ h => ?_)
      (fun grammar rules hs h => (hs.map (·.name)).nodup h) h
    rwa [(mimics_redirect proxy.name target grammar).names]
  · rwa [(mimics_simplify flattenChoices grammar).names]

/-- What the standard passes leave of a grammar has no left recursion. -/
theorem guarded_of_leaves_standard {options : Options} {left : Grammar}
    (hl : grammar.Leaves Passes.standard.all options left) : ∃ rule, left.Guarded rule := by
  obtain ⟨hpassing, -⟩ := passing_of_leaves hl
  exact ⟨_, (guarded_of_checks hpassing.duplicateRules hpassing.leftRecursion).of_leaves hl⟩

end Grammar
end Peg
