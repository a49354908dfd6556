import Peg.Proofs.Plainness

/-! The shape of trees that are read from texts. Every node has the names, the code and the operands
that the notation gives it, and display names stand at the roots of rules only. No other trees have
this shape: up to spans, each one that does is read from some text. -/
namespace Peg

namespace Notation

/-- Code as it stands in a block: no blank is at its ends, no brace in it closes more blocks than
are open, and all blocks are closed in the end. -/
structure StandsInBlock (code : String) : Prop where
  front : ∀ c ∈ code.toList.head?, Unicode.isBlank c = false
  back : ∀ c ∈ code.toList.getLast?, Unicode.isBlank c = false
  opened : ∀ cs, cs <+: code.toList → cs.count '\x7d' ≤ cs.count '\x7b'
  closed : code.toList.count '\x7b' = code.toList.count '\x7d'

/-- Counting blocks is counting braces, in front of every character. -/
theorem openBlocks_eq_some_iff {depth depth' : Nat} {cs : List Char} :
    openBlocks depth cs = some depth' ↔
      (∀ front, front <+: cs → front.count '\x7d' ≤ depth + front.count '\x7b') ∧
        depth + cs.count '\x7b' = depth' + cs.count '\x7d' := by
  induction cs generalizing depth with
  | nil =>
    refine ⟨fun h => ?_, fun h => ?_⟩
    · cases h
      refine ⟨fun front hf => ?_, rfl⟩
      rw [List.prefix_nil.mp hf]
      exact Nat.zero_le _
    · exact congrArg some h.2
  | cons c cs ih =>
    have hfronts {P : List Char → Prop} (hnil : P []) :
        (∀ front, front <+: c :: cs → P front) ↔ ∀ front, front <+: cs → P (c :: front) := by
      refine ⟨fun h front hf => h _ (List.cons_prefix_cons.mpr ⟨rfl, hf⟩), fun h front hf => ?_⟩
      rcases List.prefix_cons_iff.mp hf with rfl | ⟨rest, rfl, hrest⟩
      · exact hnil
      · exact h rest hrest
    rw [hfronts (Nat.zero_le _)]
    by_cases hopen : c = '\x7b'
    · subst hopen
      have hstep : openBlocks depth ('\x7b' :: cs) = openBlocks (depth + 1) cs := rfl
      rw [hstep, ih]
      simp only [List.count_cons_self, List.count_cons_of_ne (show '\x7b' ≠ '\x7d' by decide),
        Nat.add_assoc, Nat.add_comm 1]
    by_cases hclose : c = '\x7d'
    · subst hclose
      simp only [List.count_cons_self, List.count_cons_of_ne (show '\x7d' ≠ '\x7b' by decide)]
      cases depth with
      | zero =>
        refine ⟨nofun, fun h => ?_⟩
        have hfirst := h.1 [] List.nil_prefix
        exact absurd hfirst (by decide)
      | succ depth =>
        have hstep : openBlocks (depth + 1) ('\x7d' :: cs) = openBlocks depth cs := rfl
        rw [hstep, ih]
        refine and_congr (forall₂_congr fun front _ => ?_) ?_ <;> omega
    · rw [openBlocks_other hopen hclose, ih]
      simp only [List.count_cons_of_ne hopen, List.count_cons_of_ne hclose]

/-- Trimming takes nothing away where no blank is at the ends. -/
theorem trimBlank_eq_self_iff {cs : List Char} : Unicode.trimBlank cs = cs ↔
    (∀ c ∈ cs.head?, Unicode.isBlank c = false) ∧ ∀ c ∈ cs.getLast?, Unicode.isBlank c = false := by
  have hfront : cs.dropWhile Unicode.isBlank = cs ↔ ∀ c ∈ cs.head?, Unicode.isBlank c = false := by
    cases cs with
    | nil => exact ⟨fun _ => nofun, fun _ => rfl⟩
    | cons c cs => simp [List.dropWhile_eq_self_iff]
  have hback : cs.rdropWhile Unicode.isBlank = cs ↔
      ∀ c ∈ cs.getLast?, Unicode.isBlank c = false := by
    rw [List.rdropWhile_eq_self_iff]
    refine ⟨fun h c hc => ?_, fun h hne => ?_⟩
    · obtain ⟨hne, hlast⟩ := List.mem_getLast?_eq_getLast hc
      rw [hlast, ← Bool.not_eq_true]
      exact h hne
    · rw [Bool.not_eq_true]
      exact h _ (List.getLast?_eq_some_getLast hne)
  have htrim : Unicode.trimBlank cs = (cs.dropWhile Unicode.isBlank).rdropWhile Unicode.isBlank :=
    rfl
  rw [htrim, ← hfront, ← hback]
  refine ⟨fun h => ?_, fun h => by rw [h.1, h.2]⟩
  have hdrop : cs.dropWhile Unicode.isBlank = cs := by
    refine (List.dropWhile_suffix _).eq_of_length_le ?_
    have hlen := (List.rdropWhile_prefix Unicode.isBlank (cs.dropWhile Unicode.isBlank)).length_le
    rwa [h] at hlen
  rw [hdrop] at h
  exact ⟨hdrop, h⟩

theorem isCode_iff {code : String} : isCode code = true ↔ StandsInBlock code := by
  unfold isCode
  rw [Bool.and_eq_true, beq_iff_eq, beq_iff_eq, trimBlank_eq_self_iff, openBlocks_eq_some_iff]
  simp only [Nat.zero_add]
  exact ⟨fun h => ⟨h.1.1, h.1.2, h.2.1, h.2.2⟩,
    fun h => ⟨⟨h.front, h.back⟩, h.opened, h.closed⟩⟩

end Notation

open Notation

def Wrapper.Shaped (level : Level) : Wrapper → Prop
  | labeled label => isName label = true ∧ level ∉ [.labeled, .sequence, .action, .choice]
  | named _ => False
  | action code => StandsInBlock code ∧ level ∉ [.action, .choice]
  | text | followedBy | notFollowedBy => level ∈ [.suffixed, .primary]
  | optional | zeroOrMore | oneOrMore => level = .primary
  | group => True

theorem Wrapper.shaped_iff {level : Level} {wrapper : Wrapper} : wrapper.Shaped level ↔
    wrapper.isSpelled = true ∧ wrapper.operandLevel.rank ≤ level.rank := by
  cases wrapper with
  | labeled label =>
    have hlevel : level ∉ [Level.labeled, .sequence, .action, .choice] ↔
        Level.prefixed.rank ≤ level.rank := by cases level <;> decide
    exact and_congr_right fun _ => hlevel
  | named name => exact ⟨nofun, fun h => nomatch h.1⟩
  | action code =>
    have hlevel : level ∉ [Level.action, .choice] ↔ Level.sequence.rank ≤ level.rank := by
      cases level <;> decide
    exact and_congr isCode_iff.symm hlevel
  | text | followedBy | notFollowedBy =>
    have hlevel : level ∈ [Level.suffixed, .primary] ↔ Level.suffixed.rank ≤ level.rank := by
      cases level <;> decide
    exact hlevel.trans (and_iff_right rfl).symm
  | optional | zeroOrMore | oneOrMore =>
    have hlevel : level = .primary ↔ Level.primary.rank ≤ level.rank := by
      cases level <;> decide
    exact hlevel.trans (and_iff_right rfl).symm
  | group => exact ⟨fun _ => ⟨rfl, Nat.zero_le _⟩, fun _ => trivial⟩

namespace Expr

/-- The expression has the names, the code and the number and levels of operands that the notation
gives it. -/
def ShapedRoot : Expr → Prop
  | literal .. | any _ => True
  | charClass _ members => ∀ part ∈ members.parts, part.bounds.1 ≤ part.bounds.2
  | ruleRef _ name => isName name = true
  | predicate _ _ code => StandsInBlock code
  | sequence _ es => 2 ≤ es.length ∧ ∀ e ∈ es, e.level ∉ [.sequence, .action, .choice]
  | choice _ es => 2 ≤ es.length ∧ ∀ e ∈ es, e.level ≠ .choice
  | wrapped _ wrapper body => wrapper.Shaped body.level

/-- Every node of the expression has the shape that the notation gives it. -/
def Shaped (e : Expr) : Prop := ∀ part ∈ e.subterms, part.ShapedRoot

variable {e : Expr}

theorem shaped_leaf (hs : e.subterms = [e]) : e.Shaped ↔ e.ShapedRoot := by
  rw [Shaped, hs, List.forall_mem_singleton]

theorem spelled_leaf (hs : e.subterms = [e]) : e.Spelled ↔ e.isSpelledRoot = true := by
  rw [Spelled, hs, List.forall_mem_singleton]

theorem shaped_sequence {span : Span} {es : List Expr} :
    (sequence span es).Shaped ↔ (sequence span es).ShapedRoot ∧ ∀ e ∈ es, e.Shaped := by
  rw [Shaped, subterms, List.forall_mem_cons, forall_mem_subtermsOfAll]
  rfl

theorem shaped_choice {span : Span} {es : List Expr} :
    (choice span es).Shaped ↔ (choice span es).ShapedRoot ∧ ∀ e ∈ es, e.Shaped := by
  rw [Shaped, subterms, List.forall_mem_cons, forall_mem_subtermsOfAll]
  rfl

theorem shaped_wrapped {span : Span} {wrapper : Wrapper} {body : Expr} :
    (wrapped span wrapper body).Shaped ↔ wrapper.Shaped body.level ∧ body.Shaped := by
  rw [Shaped, subterms, List.forall_mem_cons]
  rfl

theorem enclose_eq_self_iff {least : Level} : least.enclose e.level e.regroup = e ↔
    e.regroup = e ∧ least.rank ≤ e.level.rank := by
  refine ⟨enclose_eq_self, fun ⟨hr, hl⟩ => ?_⟩
  rw [Level.enclose, if_neg (Nat.not_lt.mpr hl), hr]

theorem regroupOperands_eq_self_iff {least : Level} {es : List Expr} :
    regroupOperands least es = es ↔ ∀ e ∈ es, e.regroup = e ∧ least.rank ≤ e.level.rank := by
  refine ⟨regroupOperands_eq_self, fun h => ?_⟩
  rw [regroupOperands_eq_map, List.map_congr_left fun e he => enclose_eq_self_iff.mpr (h e he),
    List.map_id']

/-- An expression of this shape can be written as it is, and no other can. -/
theorem shaped_iff : e.Shaped ↔ e.Spelled ∧ e.regroup = e := by
  -- The shape says of each part at once what writing it and grouping it ask for separately.
  induction e using Expr.induct with
  | literal span lit =>
    rw [shaped_leaf rfl, spelled_leaf rfl]
    exact ⟨fun _ => ⟨rfl, regroup_literal span lit⟩, fun _ => trivial⟩
  | any span =>
    rw [shaped_leaf rfl, spelled_leaf rfl]
    exact ⟨fun _ => ⟨rfl, regroup_any span⟩, fun _ => trivial⟩
  | charClass span members =>
    have hparts : (∀ part ∈ members.parts, part.bounds.1 ≤ part.bounds.2) ↔
        members.parts.all ClassPart.isOrdered = true :=
      (forall₂_congr fun _ _ => decide_eq_true_iff.symm).trans List.all_eq_true.symm
    rw [shaped_leaf rfl, spelled_leaf rfl, and_iff_left (regroup_charClass span members)]
    exact hparts
  | ruleRef span name =>
    rw [shaped_leaf rfl, spelled_leaf rfl, and_iff_left (regroup_ruleRef span name)]
    exact Iff.rfl
  | predicate span negated code =>
    rw [shaped_leaf rfl, spelled_leaf rfl, and_iff_left (regroup_predicate span negated code)]
    exact isCode_iff.symm
  | sequence span es ih =>
    have hlevel (level : Level) :
        level ∉ [Level.sequence, .action, .choice] ↔ Level.labeled.rank ≤ level.rank := by
      cases level <;> decide
    have hparts : (∀ e ∈ es, e.Shaped) ↔ ∀ e ∈ es, e.Spelled ∧ e.regroup = e := forall₂_congr ih
    rw [shaped_sequence, ShapedRoot, spelled_sequence, regroup, sequence.injEq,
      regroupOperands_eq_self_iff, hparts]
    simp only [hlevel]
    constructor
    · rintro ⟨⟨hlen, hl⟩, hes⟩
      exact ⟨⟨hlen, fun e he => (hes e he).1⟩, trivial, fun e he => ⟨(hes e he).2, hl e he⟩⟩
    · rintro ⟨⟨hlen, hs⟩, -, hr⟩
      exact ⟨⟨hlen, fun e he => (hr e he).2⟩, fun e he => ⟨hs e he, (hr e he).1⟩⟩
  | choice span es ih =>
    have hlevel (level : Level) : level ≠ .choice ↔ Level.action.rank ≤ level.rank := by
      cases level <;> decide
    have hparts : (∀ e ∈ es, e.Shaped) ↔ ∀ e ∈ es, e.Spelled ∧ e.regroup = e := forall₂_congr ih
    rw [shaped_choice, ShapedRoot, spelled_choice, regroup, choice.injEq,
      regroupOperands_eq_self_iff, hparts]
    simp only [hlevel]
    constructor
    · rintro ⟨⟨hlen, hl⟩, hes⟩
      exact ⟨⟨hlen, fun e he => (hes e he).1⟩, trivial, fun e he => ⟨(hes e he).2, hl e he⟩⟩
    · rintro ⟨⟨hlen, hs⟩, -, hr⟩
      exact ⟨⟨hlen, fun e he => (hr e he).2⟩, fun e he => ⟨hs e he, (hr e he).1⟩⟩
  | wrapped span wrapper body ih =>
    rw [shaped_wrapped, Wrapper.shaped_iff, spelled_wrapped, regroup, wrapped.injEq,
      enclose_eq_self_iff, ih]
    constructor
    · rintro ⟨⟨hw, hl⟩, hs, hr⟩
      exact ⟨⟨hw, hs⟩, rfl, rfl, hr, hl⟩
    · rintro ⟨⟨hw, hs⟩, -, -, hr, hl⟩
      exact ⟨⟨hw, hl⟩, hs, hr⟩

end Expr

/-- The rule has a name, and its expression the shape that the notation gives it, a display name
around the whole of it apart. -/
def Rule.Shaped (rule : Rule) : Prop :=
  isName rule.name = true ∧ ∃ body : Expr, body.Shaped ∧
    (rule.expr = body ∨ ∃ span display, rule.expr = .wrapped span (.named display) body)

structure Grammar.Shaped (g : Grammar) : Prop where
  nonempty : g.rules ≠ []
  rules : ∀ rule ∈ g.rules, rule.Shaped
  initializer : ∀ i ∈ g.initializer, StandsInBlock i.code

theorem Rule.shaped_iff {rule : Rule} : rule.Shaped ↔
    isName rule.name = true ∧ rule.body.Spelled ∧ rule.regroup = rule := by
  refine and_congr_right fun _ => ?_
  constructor
  · rintro ⟨body, hbody, hexpr⟩
    obtain ⟨hs, hr⟩ := Expr.shaped_iff.mp hbody
    have hnamed : body.asNamed? = none := hs.asNamed? body body.mem_subterms_self
    rcases hexpr with hexpr | ⟨span, display, hexpr⟩
    · have hsame : rule.body = body := by
        rw [Rule.body, hexpr, hnamed]
        rfl
      refine ⟨hsame ▸ hs, ?_⟩
      rw [Rule.regroup, hexpr, hr, ← hexpr]
    · have hsame : rule.body = body := by
        rw [Rule.body, hexpr]
        rfl
      refine ⟨hsame ▸ hs, ?_⟩
      rw [Rule.regroup, hexpr, Expr.regroup, Wrapper.operandLevel, Level.enclose_choice, hr,
        ← hexpr]
  · rintro ⟨hs, hr⟩
    refine ⟨rule.body, Expr.shaped_iff.mpr ⟨hs, Rule.body_regroup hr⟩, ?_⟩
    exact rule.body_cases.imp (fun h => h.2.symm) id

namespace Grammar

theorem shaped_iff_written {g : Grammar} : g.Shaped ↔ g.Written := by
  constructor
  · intro h
    have hrules (rule : Rule) (hm : rule ∈ g.rules) := Rule.shaped_iff.mp (h.rules rule hm)
    refine ⟨⟨h.nonempty, fun rule hm => (hrules rule hm).1, fun rule hm => (hrules rule hm).2.1,
      fun i hi => isCode_iff.mpr (h.initializer i hi)⟩, ?_⟩
    unfold regroup
    rw [List.map_congr_left fun rule hm => (hrules rule hm).2.2, List.map_id']
  · intro h
    have hsame : g.rules.map Rule.regroup = g.rules.map id := by
      rw [List.map_id]
      exact congrArg Grammar.rules h.regroup
    have hrules := List.map_inj_left.mp hsame
    refine ⟨h.writable.nonempty, fun rule hm => Rule.shaped_iff.mpr ?_,
      fun i hi => isCode_iff.mp (h.writable.initializer i hi)⟩
    exact ⟨h.writable.names rule hm, h.writable.bodies rule hm, hrules rule hm⟩

/-- What is read from a text has the shape that the notation gives trees, and up to spans each tree
of this shape is read from some text. -/
theorem parse_shaped : (∀ text g, parse text = .ok g → g.Shaped) ∧
    ∀ g : Grammar, g.Shaped → ∃ text g', parse text = .ok g' ∧ g'.unlocated = g.unlocated := by
  refine ⟨fun text g h => shaped_iff_written.mpr (written_of_parse h), fun g h => ?_⟩
  have hw := shaped_iff_written.mp h
  obtain ⟨g', hparse, hg'⟩ := hw.writable.exists_parse
  rw [hw.regroup] at hg'
  exact ⟨g.text, g', hparse, hg'⟩

/-- Read back, the operands of too loose levels stand in groups. -/
theorem parse_shaped_loose : ∃ g', parse looseGrammar.text = .ok g' ∧ g'.Shaped ∧
    ∃ text g'', parse text = .ok g'' ∧ g''.unlocated = g'.unlocated := by
  obtain ⟨g', hparse, -⟩ := writable_looseGrammar.exists_parse
  have hshaped := parse_shaped.1 looseGrammar.text g' hparse
  exact ⟨g', hparse, hshaped, parse_shaped.2 g' hshaped⟩

end Grammar
end Peg
