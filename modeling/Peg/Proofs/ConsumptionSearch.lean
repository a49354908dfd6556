import Peg.Proofs.LeftRecursion

/-! What the search for rules that consume input finds. Inside the search the answer for a rule
depends on the path that led there, as a rule on the path counts as one that may consume nothing.
For a whole expression none of this shows: the search finds what can be derived, rule by rule, from
the expressions that consume input by themselves, and nothing else. -/
namespace Peg

/-- An expression in the wrapper matches nothing but what the expression matches, once at least. -/
def Wrapper.NeedsBody : Wrapper → Prop
  | labeled _ | named _ | action _ | text | oneOrMore | group => True
  | optional | zeroOrMore | followedBy | notFollowedBy => False

namespace Grammar

/-- The expressions that can be shown to consume input whenever they match. A derivation goes into
rules as often as it likes, but it has to end. -/
inductive MustConsume (grammar : Grammar) : Expr → Prop where
  | literal (span : Span) {lit : Literal} (h : lit.text ≠ "") :
    MustConsume grammar (.literal span lit)
  | charClass (span : Span) (cls : CharClass) : MustConsume grammar (.charClass span cls)
  | any (span : Span) : MustConsume grammar (.any span)
  | sequence (span : Span) {es : List Expr} {e : Expr} (hm : e ∈ es) (he : MustConsume grammar e) :
    MustConsume grammar (.sequence span es)
  | choice (span : Span) {es : List Expr} (h : ∀ e ∈ es, MustConsume grammar e) :
    MustConsume grammar (.choice span es)
  | wrapped (span : Span) {wrapper : Wrapper} {body : Expr} (hw : wrapper.NeedsBody)
    (h : MustConsume grammar body) : MustConsume grammar (.wrapped span wrapper body)
  | ruleRef (span : Span) {name : String} {rule : Rule} (hr : grammar.rule? name = some rule)
    (h : MustConsume grammar rule.expr) : MustConsume grammar (.ruleRef span name)

variable {grammar other : Grammar} {rule : String → Bool} {name : String} {e : Expr}

/-- If `rule` is right about the rules that it says consume input, what follows is right, too. -/
theorem mustConsume_of_consumes
    (hrule : ∀ name, rule name = true → ∀ span, grammar.MustConsume (.ruleRef span name))
    (h : e.consumes rule = true) : grammar.MustConsume e := by
  induction e using Expr.induct with
  | literal span lit =>
    apply MustConsume.literal
    simpa [Expr.consumes] using h
  | charClass span cls => exact .charClass span cls
  | any span => exact .any span
  | predicate => cases h
  | ruleRef span name => exact hrule name h span
  | sequence span es ih =>
    obtain ⟨e, hm, he⟩ := Expr.anyConsumes_iff.mp h
    exact .sequence span hm (ih e hm he)
  | choice span es ih =>
    exact .choice span fun e hm => ih e hm (Expr.allConsume_iff.mp h e hm)
  | wrapped span wrapper body ih =>
    cases wrapper with
    | optional | zeroOrMore | followedBy | notFollowedBy => cases h
    | labeled | named | action | text | oneOrMore | group => exact .wrapped span trivial (ih h)

/-- On whatever path the search is, a rule of which it finds that it consumes input does so. -/
theorem mustConsume_of_ruleConsumes {depth : ℕ} {visiting : List String}
    (h : grammar.ruleConsumes depth visiting name = true) (span : Span) :
    grammar.MustConsume (.ruleRef span name) := by
  induction depth generalizing visiting name span with
  | zero => cases h
  | succ depth ih =>
    rw [ruleConsumes] at h
    split at h
    · cases h
    · cases hr : grammar.rule? name with
      | none => rw [hr] at h; cases h
      | some found =>
        rw [hr] at h
        exact .ruleRef span hr (mustConsume_of_consumes (fun _ hn span => ih hn span) h)

/-- The rules that can be derived to consume input if derivations go into rules no deeper than
`depth`, whichever rules these are. -/
def consumesWithin (grammar : Grammar) : ℕ → String → Bool
  | 0, _ => false
  | depth + 1, name =>
    (grammar.rule? name).any fun rule => rule.expr.consumes (grammar.consumesWithin depth)

theorem consumesWithin_mono {depth depth' : ℕ} (hle : depth ≤ depth')
    (h : grammar.consumesWithin depth name = true) :
    grammar.consumesWithin depth' name = true := by
  induction depth generalizing depth' name with
  | zero => cases h
  | succ depth ih =>
    obtain ⟨depth', rfl⟩ := Nat.exists_eq_add_of_le' (Nat.le_trans (Nat.le_add_left 1 depth) hle)
    obtain ⟨found, hr, hc⟩ := (Option.any_eq_true _ _).mp h
    apply (Option.any_eq_true _ _).mpr
    exact ⟨found, hr, Expr.consumes_mono (fun _ => ih (Nat.le_of_succ_le_succ hle)) hc⟩

/-- Every derivation has a depth. -/
theorem MustConsume.exists_depth (h : grammar.MustConsume e) :
    ∃ depth, e.consumes (grammar.consumesWithin depth) = true := by
  induction h with
  | literal span h =>
    refine ⟨0, ?_⟩
    simpa [Expr.consumes] using h
  | charClass | any => exact ⟨0, rfl⟩
  | sequence span hm _ ih =>
    obtain ⟨depth, hc⟩ := ih
    exact ⟨depth, Expr.anyConsumes_iff.mpr ⟨_, hm, hc⟩⟩
  | @choice span es _ ih =>
    choose! depth hdepth using ih
    refine ⟨(es.map depth).max?.getD 0, Expr.allConsume_iff.mpr fun e hm => ?_⟩
    have hle : depth e ≤ (es.map depth).max?.getD 0 :=
      List.le_max?_getD_of_mem (List.mem_map_of_mem hm)
    exact Expr.consumes_mono (fun _ => consumesWithin_mono hle) (hdepth e hm)
  | @wrapped span wrapper body hw _ ih =>
    obtain ⟨depth, hc⟩ := ih
    refine ⟨depth, ?_⟩
    cases wrapper with
    | optional | zeroOrMore | followedBy | notFollowedBy => cases hw
    | labeled | named | action | text | oneOrMore | group => exact hc
  | ruleRef span hr _ ih =>
    obtain ⟨depth, hc⟩ := ih
    exact ⟨depth + 1, (Option.any_eq_true _ _).mpr ⟨_, hr, hc⟩⟩

/-- The search finds a rule that takes a derivation of some depth, if the rules on its path take
deeper ones. For in a derivation that is as deep as it has to be, those of the rules it goes into
are less deep, and so it does not come back to the path. -/
theorem ruleConsumes_of_consumesWithin {depth left : ℕ} {visiting : List String}
    (hlength : visiting.length + left = grammar.rules.length) (hnodup : visiting.Nodup)
    (hsub : visiting ⊆ grammar.rules.map (·.name))
    (hdeeper : ∀ passed ∈ visiting, grammar.consumesWithin depth passed = false)
    (h : grammar.consumesWithin depth name = true) :
    grammar.ruleConsumes left visiting name = true := by
  induction depth generalizing left visiting name with
  | zero => cases h
  | succ depth ih =>
    have hdeeper' : ∀ passed ∈ visiting, grammar.consumesWithin depth passed = false := by
      intro passed hp
      apply Bool.eq_false_of_not_eq_true
      intro hc
      have hlater := consumesWithin_mono (Nat.le_succ depth) hc
      rw [hdeeper passed hp] at hlater
      cases hlater
    cases hless : grammar.consumesWithin depth name with
    | true => exact ih hlength hnodup hsub hdeeper' hless
    | false =>
      -- This is the depth that it takes, so the rules it goes into take less than all of the path.
      have hnew : name ∉ visiting := by
        intro hv
        rw [hdeeper name hv] at h
        cases h
      obtain ⟨found, hr, hc⟩ := (Option.any_eq_true _ _).mp h
      have hnodup' : (name :: visiting).Nodup := List.nodup_cons.mpr ⟨hnew, hnodup⟩
      have hdeclared : name ∈ grammar.rules.map (·.name) :=
        List.mem_map.mpr ⟨found, List.mem_of_find?_eq_some hr, name_of_rule? hr⟩
      have hsub' := List.cons_subset.mpr ⟨hdeclared, hsub⟩
      have hle := (hnodup'.subperm hsub').length_le
      rw [List.length_cons, List.length_map] at hle
      obtain ⟨left, rfl⟩ := Nat.exists_eq_add_of_le' (show 1 ≤ left by omega)
      rw [ruleConsumes, if_neg hnew, hr]
      refine Expr.consumes_mono (fun next hn => ih ?_ hnodup' hsub' ?_ hn) hc
      · rw [List.length_cons]
        omega
      · exact List.forall_mem_cons.mpr ⟨hless, hdeeper'⟩

/-- What is derived from the rules depends on the first rule of each name only. -/
theorem MustConsume.of_rule? (hrules : ∀ name, other.rule? name = grammar.rule? name)
    (h : grammar.MustConsume e) : other.MustConsume e := by
  induction h with
  | literal span h => exact .literal span h
  | charClass span cls => exact .charClass span cls
  | any span => exact .any span
  | sequence span hm _ ih => exact .sequence span hm ih
  | choice span _ ih => exact .choice span ih
  | wrapped span hw _ ih => exact .wrapped span hw ih
  | ruleRef span hr _ ih => exact .ruleRef span ((hrules _).trans hr) ih

theorem mustConsume_of_alwaysConsumes (h : grammar.alwaysConsumes e = true) :
    grammar.MustConsume e :=
  mustConsume_of_consumes (fun _ hn span => mustConsume_of_ruleConsumes hn span) h

theorem MustConsume.alwaysConsumes (h : grammar.MustConsume e) :
    grammar.alwaysConsumes e = true := by
  obtain ⟨depth, hc⟩ := h.exists_depth
  apply Expr.consumes_mono _ hc
  intro name hn
  exact ruleConsumes_of_consumesWithin (Nat.zero_add _) List.nodup_nil (List.nil_subset _) nofun hn

/-- The search that cuts off the paths on which a rule comes back computes the least fixpoint. It
finds that an expression always consumes input if and only if this can be derived, whether rules
call each other, are declared twice or are not declared. So the answer is the same for any grammar
that has the same first rule of each name, in whatever order. -/
theorem alwaysConsumes_least (grammar : Grammar) (e : Expr) :
    (grammar.alwaysConsumes e = true ↔ grammar.MustConsume e) ∧
    ∀ other : Grammar, (∀ name, other.rule? name = grammar.rule? name) →
      other.alwaysConsumes e = grammar.alwaysConsumes e := by
  have hiff (grammar : Grammar) : grammar.alwaysConsumes e = true ↔ grammar.MustConsume e :=
    ⟨mustConsume_of_alwaysConsumes, MustConsume.alwaysConsumes⟩
  refine ⟨hiff grammar, fun other hrules => ?_⟩
  apply Bool.eq_iff_iff.mpr
  rw [hiff, hiff]
  exact ⟨.of_rule? fun name => (hrules name).symm, .of_rule? hrules⟩

/-- Two rules that call each other, `a = b / "x"` and `b = a "y"`, and another `a = ""`. -/
def mutualGrammar : Grammar where
  initializer := none
  rules := [
    ⟨"a", .choice .none [.ruleRef .none "b", .literal .none ⟨"x", false⟩], .none⟩,
    ⟨"b", .sequence .none [.ruleRef .none "a", .literal .none ⟨"y", false⟩], .none⟩,
    ⟨"a", .literal .none ⟨"", false⟩, .none⟩]
  span := .none

/-- The first two of the rules, in the other order. -/
def swappedGrammar : Grammar :=
  { mutualGrammar with rules := (mutualGrammar.rules.take 2).reverse }

/-- On the path that starts from `b` the search takes `a` for a rule that may consume nothing. From
outside it finds that `a` always consumes input, and so it does if `b` is declared first. -/
theorem alwaysConsumes_least_mutual :
    mutualGrammar.ruleConsumes 2 ["b"] "a" = false ∧
    mutualGrammar.MustConsume (.ruleRef .none "a") ∧
    (∀ name, swappedGrammar.rule? name = mutualGrammar.rule? name) ∧
    swappedGrammar.alwaysConsumes (.ruleRef .none "a") =
      mutualGrammar.alwaysConsumes (.ruleRef .none "a") := by
  obtain ⟨hleast, hother⟩ := alwaysConsumes_least mutualGrammar (.ruleRef .none "a")
  have hrules : ∀ name, swappedGrammar.rule? name = mutualGrammar.rule? name := by
    intro name
    by_cases ha : name = "a"
    · rw [ha]
      rfl
    · by_cases hb : name = "b"
      · rw [hb]
        rfl
      · simp [rule?, swappedGrammar, mutualGrammar, Ne.symm ha, Ne.symm hb]
  exact ⟨by decide, hleast.mp (by decide), hrules, hother swappedGrammar hrules⟩

end Grammar
end Peg
