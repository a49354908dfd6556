import Peg.Proofs.ProxyRemoval

/-! Grammars whose text says what they do. They can be written, and no sequence is an element of a
sequence, so that the groups that writing them adds cut off no labels. What is read from a text is
such a grammar, and remains one when proxies are removed and when it is simplified. -/
namespace Peg

namespace Expr

def isSequence : Expr → Bool
  | sequence .. => true
  | _ => false

/-- Whether a sequence is an element of the expression, itself a sequence. -/
def nestsSequence : Expr → Bool
  | sequence _ es => es.any isSequence
  | _ => false

/-- The expression can be written, and no sequence in it is an element of a sequence. -/
structure Plain (e : Expr) : Prop where
  spelled : e.Spelled
  unnested : ∀ part ∈ e.subterms, part.nestsSequence = false

variable {e : Expr}

theorem plain_leaf (hs : e.subterms = [e]) (hn : e.nestsSequence = false) :
    e.Plain ↔ e.isSpelledRoot = true := by
  constructor
  · intro h
    exact h.spelled e e.mem_subterms_self
  · intro h
    refine ⟨fun part hp => ?_, fun part hp => ?_⟩
    · rw [hs, List.mem_singleton] at hp
      rwa [hp]
    · rw [hs, List.mem_singleton] at hp
      rwa [hp]

theorem plain_sequence {span : Span} {es : List Expr} : (sequence span es).Plain ↔
    2 ≤ es.length ∧ ∀ e ∈ es, e.Plain ∧ e.isSequence = false := by
  constructor
  · rintro ⟨hs, hu⟩
    obtain ⟨hl, hes⟩ := spelled_sequence.mp hs
    rw [subterms, List.forall_mem_cons, forall_mem_subtermsOfAll, nestsSequence,
      List.any_eq_false] at hu
    refine ⟨hl, fun e he => ⟨⟨hes e he, hu.2 e he⟩, ?_⟩⟩
    rw [← Bool.not_eq_true]
    exact hu.1 e he
  · rintro ⟨hl, hes⟩
    refine ⟨spelled_sequence.mpr ⟨hl, fun e he => (hes e he).1.spelled⟩, ?_⟩
    rw [subterms, List.forall_mem_cons, forall_mem_subtermsOfAll, nestsSequence,
      List.any_eq_false]
    refine ⟨fun e he => ?_, fun e he => (hes e he).1.unnested⟩
    rw [Bool.not_eq_true]
    exact (hes e he).2

theorem plain_choice {span : Span} {es : List Expr} : (choice span es).Plain ↔
    2 ≤ es.length ∧ ∀ e ∈ es, e.Plain := by
  constructor
  · rintro ⟨hs, hu⟩
    obtain ⟨hl, hes⟩ := spelled_choice.mp hs
    rw [subterms, List.forall_mem_cons, forall_mem_subtermsOfAll] at hu
    exact ⟨hl, fun e he => ⟨hes e he, hu.2 e he⟩⟩
  · rintro ⟨hl, hes⟩
    refine ⟨spelled_choice.mpr ⟨hl, fun e he => (hes e he).spelled⟩, ?_⟩
    rw [subterms, List.forall_mem_cons, forall_mem_subtermsOfAll]
    exact ⟨rfl, fun e he => (hes e he).unnested⟩

theorem plain_wrapped {span : Span} {wrapper : Wrapper} {body : Expr} :
    (wrapped span wrapper body).Plain ↔ wrapper.isSpelled = true ∧ body.Plain := by
  constructor
  · rintro ⟨hs, hu⟩
    obtain ⟨hw, hb⟩ := spelled_wrapped.mp hs
    rw [subterms, List.forall_mem_cons] at hu
    exact ⟨hw, hb, hu.2⟩
  · rintro ⟨hw, hb⟩
    refine ⟨spelled_wrapped.mpr ⟨hw, hb.spelled⟩, ?_⟩
    rw [subterms, List.forall_mem_cons]
    exact ⟨rfl, hb.unnested⟩

/-- Of plain sequences no element leaves labels behind that a group would cut off. -/
theorem Plain.cutsLabels (h : e.Plain) : ∀ part ∈ e.subterms, part.cutsLabels = false := by
  intro part hp
  have hu := h.unnested part hp
  cases part with
  | sequence span es =>
    rw [nestsSequence, List.any_eq_false] at hu
    rw [Expr.cutsLabels, List.any_eq_false]
    intro e he hcuts
    obtain ⟨hl, hb⟩ := (Bool.and_eq_true _ _).mp hcuts
    cases e with
    | sequence => exact hu _ he rfl
    | wrapped span' wrapper body =>
      cases wrapper with
      | labeled label => cases hl
      | _ => cases hb
    | literal | charClass | any | ruleRef | predicate | choice => cases hb
  | literal | charClass | any | ruleRef | predicate | choice | wrapped => rfl

/-- A plain expression stays plain if its nodes do, and no sequences take the place of others. -/
theorem Plain.rebuild {f : Expr → Expr} (hf : ∀ e : Expr, e.Plain → (f e).Plain ∧
      ((f e).isSequence = true → e.isSequence = true)) (h : e.Plain) :
    (e.rebuild f).Plain ∧ ((e.rebuild f).isSequence = true → e.isSequence = true) := by
  induction e using Expr.induct with
  | literal | charClass | any | ruleRef | predicate => exact hf _ h
  | sequence span es ih =>
    obtain ⟨hl, hes⟩ := plain_sequence.mp h
    rw [Expr.rebuild, rebuildAll_eq_map]
    have hparts : (sequence span (es.map (Expr.rebuild f))).Plain := by
      rw [plain_sequence, List.length_map, List.forall_mem_map]
      refine ⟨hl, fun e he => ?_⟩
      obtain ⟨hp, hs⟩ := ih e he (hes e he).1
      refine ⟨hp, ?_⟩
      rw [← Bool.not_eq_true]
      intro hs'
      rw [(hes e he).2] at hs
      cases hs hs'
    exact ⟨(hf _ hparts).1, fun _ => rfl⟩
  | choice span es ih =>
    obtain ⟨hl, hes⟩ := plain_choice.mp h
    rw [Expr.rebuild, rebuildAll_eq_map]
    have hparts : (choice span (es.map (Expr.rebuild f))).Plain := by
      rw [plain_choice, List.length_map, List.forall_mem_map]
      exact ⟨hl, fun e he => (ih e he (hes e he)).1⟩
    exact hf _ hparts
  | wrapped span wrapper body ih =>
    obtain ⟨hw, hb⟩ := plain_wrapped.mp h
    rw [Expr.rebuild]
    exact hf _ (plain_wrapped.mpr ⟨hw, (ih hb).1⟩)

theorem plain_redirectRef {old new : String} (hn : Notation.isName new = true) (h : e.Plain) :
    (redirectRef old new e).Plain ∧
      ((redirectRef old new e).isSequence = true → e.isSequence = true) := by
  cases e with
  | ruleRef span name =>
    unfold redirectRef
    dsimp only
    split
    · exact ⟨(plain_leaf rfl rfl).mpr hn, nofun⟩
    · exact ⟨h, id⟩
  | _ => exact ⟨h, id⟩

theorem length_le_flatten {es : List Expr} (h : ∀ e ∈ es, e.Plain) :
    es.length ≤ (es.flatMap flattenChoice).length := by
  induction es with
  | nil => exact Nat.le_refl 0
  | cons e es ih =>
    have hrest := ih fun e he => h e (List.mem_cons_of_mem _ he)
    have hfirst : 1 ≤ e.flattenChoice.length := by
      cases e with
      | choice span alternatives =>
        obtain ⟨hl, -⟩ := plain_choice.mp (h _ List.mem_cons_self)
        exact Nat.le_of_succ_le hl
      | _ => exact Nat.le_refl 1
    rw [List.flatMap_cons, List.length_append, List.length_cons]
    omega

theorem plain_flattenChoice (h : e.Plain) : ∀ part ∈ e.flattenChoice, part.Plain := by
  cases e with
  | choice span alternatives => exact (plain_choice.mp h).2
  | _ => exact List.forall_mem_singleton.mpr h

theorem plain_simplifyRoot (flattenChoices : Bool) (h : e.Plain) :
    (simplifyRoot flattenChoices e).Plain ∧
      ((simplifyRoot flattenChoices e).isSequence = true → e.isSequence = true) := by
  cases e with
  | wrapped span wrapper body =>
    obtain ⟨hw, hb⟩ := plain_wrapped.mp h
    cases wrapper with
    | named name => cases hw
    | group =>
      unfold simplifyRoot
      dsimp only
      split
      · exact ⟨h, id⟩
      · rename_i hl
        refine ⟨hb, fun hs => absurd ?_ hl⟩
        cases body with
        | sequence => rfl
        | _ => cases hs
    | _ => exact ⟨h, id⟩
  | choice span es =>
    unfold simplifyRoot
    cases flattenChoices with
    | false => exact ⟨h, id⟩
    | true =>
      obtain ⟨hl, hes⟩ := plain_choice.mp h
      refine ⟨plain_choice.mpr ⟨hl.trans (length_le_flatten hes), fun e he => ?_⟩, nofun⟩
      obtain ⟨part, hp, he⟩ := List.mem_flatMap.mp he
      exact plain_flattenChoice (hes part hp) e he
  | _ => exact ⟨h, id⟩

/-- What needs no group stands in none. -/
theorem enclose_eq_self {least : Level} (h : least.enclose e.level e.regroup = e) :
    e.regroup = e ∧ least.rank ≤ e.level.rank := by
  by_cases hl : e.level.rank < least.rank
  · have hprimary : ¬ Level.primary.rank < least.rank := by cases least <;> decide
    rw [Level.enclose, if_pos hl] at h
    have hlevel : e.level = .primary := by
      rw [← h]
      rfl
    rw [hlevel] at hl
    exact absurd hl hprimary
  · rw [Level.enclose, if_neg hl] at h
    exact ⟨h, Nat.le_of_not_lt hl⟩

theorem regroupOperands_eq_self {least : Level} {es : List Expr}
    (h : regroupOperands least es = es) :
    ∀ e ∈ es, e.regroup = e ∧ least.rank ≤ e.level.rank := by
  intro e he
  rw [regroupOperands_eq_map] at h
  have hsame : es.map (fun e => least.enclose e.level e.regroup) = es.map id := by
    rw [h, List.map_id]
  exact enclose_eq_self (List.map_inj_left.mp hsame e he)

/-- What can be written as it is is plain. -/
theorem plain_of_regroup (hs : e.Spelled) (hr : e.regroup = e) : e.Plain := by
  induction e using Expr.induct with
  | literal | charClass | any | ruleRef | predicate =>
    exact (plain_leaf rfl rfl).mpr (hs _ (mem_subterms_self _))
  | sequence span es ih =>
    obtain ⟨hl, hes⟩ := spelled_sequence.mp hs
    rw [Expr.regroup] at hr
    have hparts := regroupOperands_eq_self (Expr.sequence.inj hr).2
    refine plain_sequence.mpr ⟨hl, fun e he => ⟨ih e he (hes e he) (hparts e he).1, ?_⟩⟩
    obtain ⟨-, hrank⟩ := hparts e he
    cases e with
    | sequence =>
      have hrank' : Level.labeled.rank ≤ Level.sequence.rank := hrank
      exact absurd hrank' (by decide)
    | _ => rfl
  | choice span es ih =>
    obtain ⟨hl, hes⟩ := spelled_choice.mp hs
    rw [Expr.regroup] at hr
    have hparts := regroupOperands_eq_self (Expr.choice.inj hr).2
    exact plain_choice.mpr ⟨hl, fun e he => ih e he (hes e he) (hparts e he).1⟩
  | wrapped span wrapper body ih =>
    obtain ⟨hw, hb⟩ := spelled_wrapped.mp hs
    rw [Expr.regroup] at hr
    obtain ⟨hbody, -⟩ := enclose_eq_self (Expr.wrapped.inj hr).2.2
    exact plain_wrapped.mpr ⟨hw, ih hb hbody⟩

end Expr

namespace Rule

/-- The body of a rule is its expression, or stands under the display name there. -/
theorem body_cases (rule : Rule) : rule.expr.asNamed? = none ∧ rule.body = rule.expr ∨
    ∃ span name, rule.expr = .wrapped span (.named name) rule.body := by
  unfold body
  cases hn : rule.expr.asNamed? with
  | none => exact Or.inl ⟨rfl, rfl⟩
  | some named =>
    obtain ⟨span, he⟩ := Expr.exists_of_asNamed? hn
    exact Or.inr ⟨span, named.1, he⟩

/-- What stands under the display name of a rule is rebuilt. -/
theorem body_rebuild {f : Expr → Expr} {rule : Rule} {span : Span}
    (hbody : (rule.body.rebuild f).asNamed? = none)
    (hf : ∀ (span : Span) (name : String) (body : Expr), body.asNamed? = none →
      f (.wrapped span (.named name) body) = .wrapped span (.named name) body) :
    (Rule.mk rule.name (rule.expr.rebuild f) span).body = rule.body.rebuild f := by
  rcases rule.body_cases with ⟨-, hroot⟩ | ⟨span', name, he⟩
  · rw [hroot] at hbody ⊢
    rw [body, hbody]
    rfl
  · rw [he, Expr.rebuild, hf span' name _ hbody]
    rfl

theorem body_regroup {rule : Rule} (h : rule.regroup = rule) : rule.body.regroup = rule.body := by
  have hexpr : rule.expr.regroup = rule.expr := congrArg Rule.expr h
  rcases rule.body_cases with ⟨-, hroot⟩ | ⟨span, name, he⟩
  · rw [hroot, hexpr]
  · rw [he, Expr.regroup, Wrapper.operandLevel, Level.enclose_choice] at hexpr
    exact (Expr.wrapped.inj hexpr).2.2

end Rule

namespace Grammar

variable {grammar : Grammar}

/-- The rules of the grammar, if there are any, can be written, and say what they do. -/
structure Plain (grammar : Grammar) : Prop where
  names : ∀ rule ∈ grammar.rules, Notation.isName rule.name = true
  bodies : ∀ rule ∈ grammar.rules, rule.body.Plain
  initializer : ∀ i, grammar.initializer = some i → Notation.isCode i.code = true

/-- What was read from a text is plain. -/
theorem Written.plain (h : grammar.Written) : grammar.Plain where
  names := h.writable.names
  bodies rule hm := by
    have hsame : grammar.rules.map Rule.regroup = grammar.rules.map id := by
      rw [List.map_id]
      exact congrArg Grammar.rules h.regroup
    exact Expr.plain_of_regroup (h.writable.bodies rule hm)
      (Rule.body_regroup (List.map_inj_left.mp hsame rule hm))
  initializer := h.writable.initializer

theorem Plain.writable (h : grammar.Plain) (hne : grammar.rules ≠ []) : grammar.Writable where
  nonempty := hne
  names := h.names
  bodies rule hm := (h.bodies rule hm).spelled
  initializer := h.initializer

/-- Writing a plain grammar cuts off no labels. -/
theorem Plain.cutsLabels (h : grammar.Plain) : grammar.cutsLabels = false := by
  refine List.any_eq_false.mpr fun part hp => ?_
  obtain ⟨rule, hm, hp⟩ := List.mem_flatMap.mp hp
  have hbody := (h.bodies rule hm).cutsLabels
  rw [Bool.not_eq_true]
  rcases rule.body_cases with ⟨-, hroot⟩ | ⟨span, name, he⟩
  · rw [hroot] at hbody
    exact hbody part hp
  · rw [he, Expr.subterms, List.mem_cons] at hp
    rcases hp with rfl | hp
    · rfl
    · exact hbody part hp

theorem Plain.rebuild (h : grammar.Plain) {f : Expr → Expr}
    (hp : ∀ e : Expr, e.Plain → (f e).Plain ∧ ((f e).isSequence = true → e.isSequence = true))
    (hf : ∀ (span : Span) (name : String) (body : Expr), body.asNamed? = none →
      f (.wrapped span (.named name) body) = .wrapped span (.named name) body) :
    (grammar.rebuild f).Plain where
  names := List.forall_mem_map.mpr h.names
  bodies := List.forall_mem_map.mpr fun rule hm => by
    have hbody := ((h.bodies rule hm).rebuild hp).1
    rwa [Rule.body_rebuild (hbody.spelled.asNamed? _ (Expr.mem_subterms_self _)) hf]
  initializer := h.initializer

theorem Plain.simplify (h : grammar.Plain) (flattenChoices : Bool) :
    (grammar.simplify flattenChoices).Plain := by
  refine h.rebuild (fun e he => Expr.plain_simplifyRoot flattenChoices he)
    fun span name body hb => ?_
  rw [Expr.simplifyRoot, hb]
  rfl

/-- References are redirected to names. -/
theorem Plain.redirect (h : grammar.Plain) {proxy : Rule} {target : String}
    (hm : proxy ∈ grammar.rules) (ht : proxy.proxyTarget? = some target) :
    (grammar.redirect proxy.name target).Plain := by
  obtain ⟨span, he⟩ := eq_of_proxyTarget? ht
  have hbody : proxy.body = .ruleRef span target := by rw [Rule.body, he]; rfl
  have htarget : (Expr.ruleRef span target).Plain := hbody ▸ h.bodies proxy hm
  have hname : Notation.isName target = true := (Expr.plain_leaf rfl rfl).mp htarget
  exact h.rebuild (fun e he => Expr.plain_redirectRef hname he) fun span name body _ => rfl

theorem Plain.removeProxies (h : grammar.Plain) (names : List String) :
    (grammar.removeProxies names).1.Plain := by
  refine removeProxies_preserves (P := Plain) names
    (fun grammar index proxy target hi ht h => h.redirect (List.mem_of_getElem? hi) ht)
    (fun grammar rules hs h => ?_) h
  exact ⟨fun rule hm => h.names rule (hs.subset hm), fun rule hm => h.bodies rule (hs.subset hm),
    h.initializer⟩

end Grammar
end Peg
