import Peg.Notation.Printer
import Peg.Notation.Scanner
import Peg.Proofs.Subterms

/-! Grammars that can be written in the notation. Where an operand is of too loose a level, writing
it puts a group around it; for the text this makes no difference, nor do the spans. -/
namespace Peg

namespace Notation

def isName (name : String) : Bool :=
  name.toList.head?.any isNameStart && name.toList.all isNamePart && !reservedWords.contains name

/-- The number of blocks that are open behind the characters, `depth` being open before them. There
is none if a brace closes a block too many. -/
def openBlocks : Nat → List Char → Option Nat
  | depth, [] => some depth
  | depth, c :: cs =>
    if c = '\x7b' then openBlocks (depth + 1) cs
    else if c = '\x7d' then
      match depth with
      | 0 => none
      | depth + 1 => openBlocks depth cs
    else openBlocks depth cs

/-- Whether code can stand in a block as it is: no blank at its ends, all braces in pairs. -/
def isCode (code : String) : Bool :=
  Unicode.trimBlank code.toList == code.toList && openBlocks 0 code.toList == some 0

end Notation

def ClassPart.isOrdered (part : ClassPart) : Bool := part.bounds.1 ≤ part.bounds.2

def Wrapper.isSpelled : Wrapper → Bool
  | labeled label => Notation.isName label
  | action code => Notation.isCode code
  | named _ => false
  | _ => true

namespace Expr

def isSpelledRoot : Expr → Bool
  | charClass _ members => members.parts.all ClassPart.isOrdered
  | ruleRef _ name => Notation.isName name
  | predicate _ _ code => Notation.isCode code
  | sequence _ es | choice _ es => 2 ≤ es.length
  | wrapped _ wrapper _ => wrapper.isSpelled
  | _ => true

def Spelled (e : Expr) : Prop := ∀ part ∈ e.subterms, part.isSpelledRoot = true

instance (e : Expr) : Decidable e.Spelled :=
  inferInstanceAs (Decidable (∀ part ∈ e.subterms, part.isSpelledRoot = true))

theorem spelled_sequence {span : Span} {es : List Expr} :
    (sequence span es).Spelled ↔ 2 ≤ es.length ∧ ∀ e ∈ es, e.Spelled := by
  simp only [Spelled, subterms, List.forall_mem_cons, forall_mem_subtermsOfAll, isSpelledRoot,
    decide_eq_true_eq]

theorem spelled_choice {span : Span} {es : List Expr} :
    (choice span es).Spelled ↔ 2 ≤ es.length ∧ ∀ e ∈ es, e.Spelled := by
  simp only [Spelled, subterms, List.forall_mem_cons, forall_mem_subtermsOfAll, isSpelledRoot,
    decide_eq_true_eq]

theorem spelled_wrapped {span : Span} {wrapper : Wrapper} {body : Expr} :
    (wrapped span wrapper body).Spelled ↔ wrapper.isSpelled = true ∧ body.Spelled := by
  simp only [Spelled, subterms, List.forall_mem_cons, isSpelledRoot]

/-- What is spelled has no display name inside. -/
theorem Spelled.asNamed? {e : Expr} (h : e.Spelled) :
    ∀ part ∈ e.subterms, part.asNamed? = none := by
  intro part hp
  have hs := h part hp
  cases part with
  | wrapped span wrapper body =>
    cases wrapper with
    | named name => cases hs
    | labeled | action | text | optional | zeroOrMore | oneOrMore | group | followedBy
    | notFollowedBy => rfl
  | literal | charClass | any | ruleRef | predicate | sequence | choice => rfl

end Expr

/-- A group around the expression of level `level` where the notation wants `least` at least. -/
def Level.enclose (least level : Level) (e : Expr) : Expr :=
  if level.rank < least.rank then .wrapped .none .group e else e

@[simp]
theorem Level.enclose_choice (level : Level) (e : Expr) : Level.choice.enclose level e = e :=
  if_neg (Nat.not_lt_zero _)

namespace Expr

mutual

/-- The expression with the groups that writing it adds. -/
def regroup : Expr → Expr
  | sequence span elements => .sequence span (regroupOperands .labeled elements)
  | choice span alternatives => .choice span (regroupOperands .action alternatives)
  | wrapped span wrapper body =>
    .wrapped span wrapper (wrapper.operandLevel.enclose body.level body.regroup)
  | e => e

def regroupOperands (least : Level) : List Expr → List Expr
  | [] => []
  | e :: es => least.enclose e.level e.regroup :: regroupOperands least es

end

section Leaves

variable (span : Span)

@[simp]
theorem regroup_literal (lit : Literal) : (literal span lit).regroup = .literal span lit := by
  rw [regroup] <;> nofun

@[simp]
theorem regroup_charClass (members : CharClass) :
    (charClass span members).regroup = .charClass span members := by
  rw [regroup] <;> nofun

@[simp]
theorem regroup_any : (any span).regroup = .any span := by
  rw [regroup] <;> nofun

@[simp]
theorem regroup_ruleRef (name : String) : (ruleRef span name).regroup = .ruleRef span name := by
  rw [regroup] <;> nofun

@[simp]
theorem regroup_predicate (negated : Bool) (code : String) :
    (predicate span negated code).regroup = .predicate span negated code := by
  rw [regroup] <;> nofun

end Leaves

def withoutSpan : Expr → Expr
  | literal _ lit => .literal .none lit
  | charClass _ members => .charClass .none members
  | any _ => .any .none
  | ruleRef _ name => .ruleRef .none name
  | predicate _ negated code => .predicate .none negated code
  | sequence _ elements => .sequence .none elements
  | choice _ alternatives => .choice .none alternatives
  | wrapped _ wrapper body => .wrapped .none wrapper body

/-- The expression without all spans. -/
def unlocated (e : Expr) : Expr := e.rebuild withoutSpan

@[simp]
theorem unlocated_literal (span : Span) (lit : Literal) :
    (literal span lit).unlocated = .literal .none lit := rfl

@[simp]
theorem unlocated_charClass (span : Span) (members : CharClass) :
    (charClass span members).unlocated = .charClass .none members := rfl

@[simp]
theorem unlocated_any (span : Span) : (any span).unlocated = .any .none := rfl

@[simp]
theorem unlocated_ruleRef (span : Span) (name : String) :
    (ruleRef span name).unlocated = .ruleRef .none name := rfl

@[simp]
theorem unlocated_predicate (span : Span) (negated : Bool) (code : String) :
    (predicate span negated code).unlocated = .predicate .none negated code := rfl

@[simp]
theorem unlocated_sequence (span : Span) (es : List Expr) :
    (sequence span es).unlocated = .sequence .none (es.map unlocated) := by
  unfold unlocated
  rw [rebuild, rebuildAll_eq_map, withoutSpan]

@[simp]
theorem unlocated_choice (span : Span) (es : List Expr) :
    (choice span es).unlocated = .choice .none (es.map unlocated) := by
  unfold unlocated
  rw [rebuild, rebuildAll_eq_map, withoutSpan]

@[simp]
theorem unlocated_wrapped (span : Span) (wrapper : Wrapper) (body : Expr) :
    (wrapped span wrapper body).unlocated = .wrapped .none wrapper body.unlocated := by
  unfold unlocated
  rw [rebuild, withoutSpan]

theorem regroupOperands_eq_map (least : Level) (es : List Expr) :
    regroupOperands least es = es.map fun e => least.enclose e.level e.regroup := by
  induction es with
  | nil => rw [regroupOperands, List.map_nil]
  | cons e es ih => rw [regroupOperands, List.map_cons, ih]

theorem renderOperands_eq_map (least : Level) (es : List Expr) :
    renderOperands least es = es.map fun e => least.parenthesize e.level e.render := by
  induction es with
  | nil => rw [renderOperands, List.map_nil]
  | cons e es ih => rw [renderOperands, List.map_cons, ih]

theorem level_regroup (e : Expr) : e.regroup.level = e.level := by
  induction e using Expr.induct with
  | wrapped span wrapper body ih =>
    rw [regroup]
    cases wrapper with
    | named name =>
      rw [level, level]
      exact ih
    | labeled | action | text | optional | zeroOrMore | oneOrMore | group | followedBy
    | notFollowedBy => rfl
  | sequence | choice => rw [regroup]; rfl
  | literal | charClass | any | ruleRef | predicate => simp

/-- Written out, a group is what a text in parentheses stands for. -/
theorem render_enclose (least : Level) {level : Level} {e : Expr} (hl : e.level = level) :
    least.parenthesize (least.enclose level e).level (least.enclose level e).render =
      least.parenthesize level e.render := by
  unfold Level.enclose Level.parenthesize
  by_cases h : level.rank < least.rank
  · rw [if_pos h, if_pos h]
    have hprimary : ¬ Level.primary.rank < least.rank := by cases least <;> decide
    have hloosest : ¬ level.rank < Level.choice.rank := Nat.not_lt_zero _
    rw [Expr.level, if_neg hprimary, render]
    unfold Level.parenthesize
    rw [hl, Wrapper.operandLevel, if_neg hloosest]
    rfl
  · rw [if_neg h, hl, if_neg h]

theorem render_regroup (e : Expr) : e.regroup.render = e.render := by
  have hoperand (least : Level) {e : Expr} (h : e.regroup.render = e.render) :
      least.parenthesize (least.enclose e.level e.regroup).level
        (least.enclose e.level e.regroup).render = least.parenthesize e.level e.render := by
    rw [render_enclose least (level_regroup e), h]
  induction e using Expr.induct with
  | sequence span es ih =>
    rw [regroup, render, render, renderOperands_eq_map, renderOperands_eq_map,
      regroupOperands_eq_map, List.map_map]
    exact congrArg _ (List.map_congr_left fun e he => hoperand .labeled (ih e he))
  | choice span es ih =>
    rw [regroup, render, render, renderOperands_eq_map, renderOperands_eq_map,
      regroupOperands_eq_map, List.map_map]
    exact congrArg _ (List.map_congr_left fun e he => hoperand .action (ih e he))
  | wrapped span wrapper body ih =>
    rw [regroup, render, render, hoperand wrapper.operandLevel ih]
  | literal | charClass | any | ruleRef | predicate => simp

theorem level_unlocated (e : Expr) : e.unlocated.level = e.level := by
  induction e using Expr.induct with
  | wrapped span wrapper body ih =>
    rw [unlocated_wrapped]
    cases wrapper with
    | named name =>
      rw [level, level]
      exact ih
    | labeled | action | text | optional | zeroOrMore | oneOrMore | group | followedBy
    | notFollowedBy => rfl
  | sequence span es => rw [unlocated_sequence]; rfl
  | choice span es => rw [unlocated_choice]; rfl
  | literal | charClass | any | ruleRef | predicate => rfl

theorem render_unlocated (e : Expr) : e.unlocated.render = e.render := by
  have hoperand (least : Level) {e : Expr} (h : e.unlocated.render = e.render) :
      least.parenthesize e.unlocated.level e.unlocated.render =
        least.parenthesize e.level e.render := by
    rw [level_unlocated, h]
  induction e using Expr.induct with
  | sequence span es ih =>
    rw [unlocated_sequence, render, render, renderOperands_eq_map, renderOperands_eq_map,
      List.map_map]
    exact congrArg _ (List.map_congr_left fun e he => hoperand .labeled (ih e he))
  | choice span es ih =>
    rw [unlocated_choice, render, render, renderOperands_eq_map, renderOperands_eq_map,
      List.map_map]
    exact congrArg _ (List.map_congr_left fun e he => hoperand .action (ih e he))
  | wrapped span wrapper body ih =>
    rw [unlocated_wrapped, render, render, hoperand wrapper.operandLevel ih]
  | literal | charClass | any | ruleRef | predicate => rfl

theorem asNamed?_regroup (e : Expr) :
    e.regroup.asNamed? = e.asNamed?.map fun named => (named.1, named.2.regroup) := by
  cases e with
  | wrapped span wrapper body => rw [regroup]; cases wrapper <;> rfl
  | sequence | choice => rw [regroup]; rfl
  | literal | charClass | any | ruleRef | predicate => simp [asNamed?]

theorem asNamed?_unlocated (e : Expr) :
    e.unlocated.asNamed? = e.asNamed?.map fun named => (named.1, named.2.unlocated) := by
  cases e with
  | wrapped span wrapper body => rw [unlocated_wrapped]; cases wrapper <;> rfl
  | sequence span es => rw [unlocated_sequence]; rfl
  | choice span es => rw [unlocated_choice]; rfl
  | literal | charClass | any | ruleRef | predicate => rfl

end Expr

namespace Rule

def regroup (rule : Rule) : Rule := { rule with expr := rule.expr.regroup }

def unlocated (rule : Rule) : Rule := ⟨rule.name, rule.expr.unlocated, .none⟩

/-- A change of expressions that leaves display names where they are does not show in a rule that is
written out if it does not show in expressions. -/
theorem render_map {f : Expr → Expr} (hf : ∀ e, (f e).render = e.render)
    (hn : ∀ e : Expr, (f e).asNamed? = e.asNamed?.map fun named => (named.1, f named.2))
    {rule rule' : Rule} (hname : rule'.name = rule.name) (hexpr : rule'.expr = f rule.expr) :
    rule'.render = rule.render := by
  have hbody : rule'.body.render = rule.body.render := by
    unfold body
    rw [hexpr, hn]
    cases rule.expr.asNamed? with
    | none => exact hf rule.expr
    | some named => exact hf named.2
  have hdisplay : rule'.displayName = rule.displayName := by
    unfold displayName
    rw [hexpr, hn, Option.map_map]
    rfl
  unfold render
  rw [hname, hdisplay, hbody]

theorem render_regroup (rule : Rule) : rule.regroup.render = rule.render :=
  render_map Expr.render_regroup Expr.asNamed?_regroup rfl rfl

theorem render_unlocated (rule : Rule) : rule.unlocated.render = rule.render :=
  render_map Expr.render_unlocated Expr.asNamed?_unlocated rfl rfl

end Rule

namespace Grammar

structure Writable (grammar : Grammar) : Prop where
  nonempty : grammar.rules ≠ []
  names : ∀ rule ∈ grammar.rules, Notation.isName rule.name = true
  bodies : ∀ rule ∈ grammar.rules, rule.body.Spelled
  initializer : ∀ i, grammar.initializer = some i → Notation.isCode i.code = true

def regroup (grammar : Grammar) : Grammar :=
  { grammar with rules := grammar.rules.map Rule.regroup }

def unlocated (grammar : Grammar) : Grammar where
  initializer := grammar.initializer.map fun i => ⟨i.code, .none⟩
  rules := grammar.rules.map Rule.unlocated
  span := .none

def initializerText (grammar : Grammar) : String :=
  match grammar.initializer with
  | some i => Notation.renderCode i.code ++ "\n\n"
  | none => ""

def text (grammar : Grammar) : String :=
  grammar.initializerText ++ "\n".intercalate (grammar.rules.map Rule.render) ++ "\n"

theorem render_eq_ok {grammar : Grammar} (h : ∀ rule ∈ grammar.rules, rule.body.Spelled) :
    grammar.render = .ok grammar.text := by
  have hn : grammar.rules.findSome? Rule.nestedDisplayName? = none := by
    refine List.findSome?_eq_none_iff.mpr fun rule hr => ?_
    refine List.findSome?_eq_none_iff.mpr fun part hp => ?_
    rw [(h rule hr).asNamed? part hp]
    rfl
  unfold render
  rw [hn]
  rfl

theorem text_regroup (grammar : Grammar) : grammar.regroup.text = grammar.text := by
  have hr : (grammar.rules.map Rule.regroup).map Rule.render = grammar.rules.map Rule.render := by
    rw [List.map_map]
    exact List.map_congr_left fun rule _ => rule.render_regroup
  unfold text
  rw [regroup, hr]
  rfl

theorem text_unlocated (grammar : Grammar) : grammar.unlocated.text = grammar.text := by
  have hr : (grammar.rules.map Rule.unlocated).map Rule.render = grammar.rules.map Rule.render := by
    rw [List.map_map]
    exact List.map_congr_left fun rule _ => rule.render_unlocated
  have hi : grammar.unlocated.initializerText = grammar.initializerText := by
    unfold initializerText unlocated
    cases grammar.initializer <;> rfl
  unfold text
  rw [hi, unlocated, hr]

end Grammar

end Peg
