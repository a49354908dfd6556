import Peg.Proofs.Layout
import Peg.Proofs.Levels

/-! Expressions are read back from rows of their tokens, whatever gaps there are between these: the
induction on expressions gives what each level makes of the rows of its own. -/
namespace Peg

open Notation

namespace Notation

def Token.Begins (t : Token) : Prop := ∃ c ds, t.text = c :: ds ∧ beginsExpr c = true

/-- What begins an expression needs a gap before it if nothing else keeps it apart. -/
theorem Token.Begins.closes {t : Token} (h : t.Begins) : t.closes = false := by
  obtain ⟨c, ds, htext, hc⟩ := h
  cases t with
  | symbol d =>
    cases htext
    rw [← Bool.not_eq_true, Token.closes, decide_eq_true_eq]
    simp only [List.mem_cons, List.not_mem_nil, or_false]
    rintro (rfl | rfl | rfl | rfl | rfl | rfl | rfl | rfl) <;> exact absurd hc (by decide)
  | name | literal | charClass | code => rfl

/-- The tokens are some and need a gap behind them if nothing else keeps them apart. -/
def Shut (ts : List Token) : Prop := ts.getLast?.all Token.opens = false

theorem Shut.ne_nil {ts : List Token} (h : Shut ts) : ts ≠ [] := by
  rintro rfl
  cases h

theorem shut_single {t : Token} (h : t.opens = false) : Shut [t] := h

theorem Shut.append {us : List Token} (h : Shut us) (ts : List Token) : Shut (ts ++ us) := by
  unfold Shut at *
  rw [List.getLast?_append]
  cases hlast : us.getLast? with
  | none =>
    rw [hlast] at h
    cases h
  | some t =>
    rw [hlast] at h
    exact h

theorem shut_flatMap {α : Type} {f : α → List Token} {items : List α} (hne : items ≠ [])
    (h : ∀ item ∈ items, Shut (f item)) : Shut (items.flatMap f) := by
  induction items with
  | nil => exact absurd rfl hne
  | cons item items ih =>
    obtain ⟨hitem, hitems⟩ := List.forall_mem_cons.mp h
    rw [List.flatMap_cons]
    by_cases he : items = []
    · rw [he, List.flatMap_nil, List.append_nil]
      exact hitem
    · exact (ih he hitems).append _

end Notation

namespace Expr

variable {e : Expr} {least : Level} {cs rest : List Char}

/-- What begins an expression, begins it in parentheses too. -/
theorem exists_operand_head (least : Level) (h : ∃ t ts, e.tokens = t :: ts ∧ t.Begins) :
    ∃ t ts, e.operand least = t :: ts ∧ t.Begins := by
  by_cases hl : e.level.rank < least.rank
  · rw [operand_loose hl]
    exact ⟨.symbol '(', _, rfl, '(', [], rfl, by decide⟩
  · rwa [operand_tight (Nat.not_lt.mp hl)]

/-- An expression begins with a token that begins expressions. -/
theorem Spelled.exists_head (h : e.Spelled) : ∃ t ts, e.tokens = t :: ts ∧ t.Begins := by
  induction e using Expr.induct with
  | literal span lit =>
    obtain ⟨ds, hds⟩ : ∃ ds, (Token.literal lit).text = '"' :: ds :=
      ⟨_, by rw [Token.text, toList_renderLiteral, toList_quote, List.cons_append]⟩
    exact ⟨.literal lit, [], by rw [tokens], '"', ds, hds, by decide⟩
  | charClass span members =>
    exact ⟨.charClass members, [], by rw [tokens], '[', _, toList_renderClass members, by decide⟩
  | any span => exact ⟨.symbol '.', [], by rw [tokens], '.', [], rfl, by decide⟩
  | ruleRef span name =>
    obtain ⟨c, cs, hc, hstart⟩ := exists_cons_of_isName (h _ List.mem_cons_self)
    exact ⟨.name name, [], by rw [tokens], c, cs, hc, beginsExpr_iff.mpr (Or.inr hstart)⟩
  | predicate span negated code =>
    rw [tokens]
    exact ⟨_, _, rfl, _, [], rfl, by cases negated <;> decide⟩
  | sequence span es ih =>
    obtain ⟨hlen, hs⟩ := spelled_sequence.mp h
    obtain ⟨e, es, rfl⟩ := List.exists_cons_of_length_pos (Nat.lt_of_lt_of_le Nat.two_pos hlen)
    have hfirst := ih e List.mem_cons_self (hs e List.mem_cons_self)
    obtain ⟨t, ts, ht, hb⟩ := exists_operand_head _ hfirst
    rw [tokens_sequence, List.flatMap_cons, ht]
    exact ⟨t, _, rfl, hb⟩
  | choice span es ih =>
    obtain ⟨hlen, hs⟩ := spelled_choice.mp h
    obtain ⟨e, es, rfl⟩ := List.exists_cons_of_length_pos (Nat.lt_of_lt_of_le Nat.two_pos hlen)
    have hfirst := ih e List.mem_cons_self (hs e List.mem_cons_self)
    obtain ⟨t, ts, ht, hb⟩ := exists_operand_head _ hfirst
    rw [tokens_choice, ht]
    exact ⟨t, _, rfl, hb⟩
  | wrapped span wrapper body ih =>
    obtain ⟨hw, hs⟩ := spelled_wrapped.mp h
    obtain ⟨t, ts, ht, hb⟩ := exists_operand_head _ (ih hs)
    rw [tokens_wrapped, ht]
    cases wrapper with
    | labeled label =>
      obtain ⟨c, cs, hc, hstart⟩ := exists_cons_of_isName hw
      exact ⟨.name label, _, rfl, c, cs, hc, beginsExpr_iff.mpr (Or.inr hstart)⟩
    | named name => cases hw
    | text => exact ⟨.symbol '$', _, rfl, '$', [], rfl, by decide⟩
    | group => exact ⟨.symbol '(', _, rfl, '(', [], rfl, by decide⟩
    | followedBy => exact ⟨.symbol '&', _, rfl, '&', [], rfl, by decide⟩
    | notFollowedBy => exact ⟨.symbol '!', _, rfl, '!', [], rfl, by decide⟩
    | action | optional | zeroOrMore | oneOrMore => exact ⟨t, _, rfl, hb⟩

theorem Spelled.operand_ne_nil (h : e.Spelled) (least : Level) : e.operand least ≠ [] := by
  obtain ⟨t, ts, ht, -⟩ := exists_operand_head least h.exists_head
  rw [ht]
  exact List.cons_ne_nil t ts

theorem Spelled.closes_head (h : e.Spelled) (least : Level) :
    (e.operand least).head?.all Token.closes = false := by
  obtain ⟨t, ts, ht, hb⟩ := exists_operand_head least h.exists_head
  rw [ht]
  exact hb.closes

theorem shut_operand (h : Shut e.tokens) : Shut (e.operand least) := by
  by_cases hl : e.level.rank < least.rank
  · rw [operand_loose hl]
    exact (shut_single rfl).append (.symbol '(' :: e.tokens)
  · rwa [operand_tight (Nat.not_lt.mp hl)]

/-- No expression ends with a symbol that needs no gap behind it. -/
theorem Spelled.shut (h : e.Spelled) : Shut e.tokens := by
  induction e using Expr.induct with
  | literal | charClass | any | ruleRef | predicate =>
    rw [tokens]
    rfl
  | sequence span es ih =>
    obtain ⟨hlen, hs⟩ := spelled_sequence.mp h
    rw [tokens_sequence]
    refine shut_flatMap ?_ fun e he => shut_operand (ih e he (hs e he))
    rintro rfl
    cases hlen
  | choice span es ih =>
    obtain ⟨hlen, hs⟩ := spelled_choice.mp h
    obtain ⟨e, es, rfl⟩ := List.exists_cons_of_length_pos (Nat.lt_of_lt_of_le Nat.two_pos hlen)
    rw [tokens_choice]
    refine Shut.append (shut_flatMap ?_ fun e' he => ?_) _
    · rintro rfl
      rw [List.length_singleton] at hlen
      omega
    · have hm := List.mem_cons_of_mem e he
      exact (shut_operand (ih e' hm (hs e' hm))).append [.symbol '/']
  | wrapped span wrapper body ih =>
    obtain ⟨hw, hs⟩ := spelled_wrapped.mp h
    have hbody (least : Level) : Shut (body.operand least) := shut_operand (ih hs)
    rw [tokens_wrapped]
    refine Shut.append ?_ _
    cases wrapper with
    | named name => cases hw
    | labeled | text | followedBy | notFollowedBy =>
      change Shut (body.operand _ ++ [])
      rw [List.append_nil]
      exact hbody _
    | action | optional | zeroOrMore | oneOrMore | group =>
      refine (shut_single ?_).append _
      rfl

/-- The text of an operand begins with a character that begins expressions. -/
theorem Spelled.exists_cons (h : e.Spelled) (hrow : Row (e.operand least) cs) :
    ∃ c ds, cs = c :: ds ∧ beginsExpr c = true := by
  obtain ⟨t, ts, ht, c, ds, htext, hc⟩ := exists_operand_head least h.exists_head
  rw [ht] at hrow
  obtain ⟨ds', rfl, -⟩ := row_cons.mp hrow
  exact ⟨c, ds ++ ds', by rw [htext, List.cons_append], hc⟩

theorem Spelled.bare (h : e.Spelled) (hrow : Row (e.operand least) cs) (rest : List Char) :
    Bare (cs ++ rest) := by
  obtain ⟨c, ds, rfl, hc⟩ := h.exists_cons hrow
  exact bare_of_beginsExpr hc

/-- An operand begins an element where its expression does. -/
theorem begins_operand (hrow : Row (e.operand least) cs)
    (h : least.rank ≤ e.level.rank → Row e.tokens cs → Begins e.level (cs ++ rest)) :
    Begins least (cs ++ rest) := by
  by_cases hloose : e.level.rank < least.rank
  · rw [operand_loose hloose] at hrow
    obtain ⟨ds, rfl, -⟩ := row_cons.mp hrow
    exact begins_symbol (by decide) (by decide) (by decide) fun _ => by decide
  · have hle := Nat.not_lt.mp hloose
    rw [operand_tight hle] at hrow
    exact (h hle hrow).mono hle

/-- A literal begins an element, whether a flag follows or not. -/
theorem begins_flagged (lit : Literal) {level : Level} (hr : Behind .primary rest) :
    Begins level (lit.render.toList ++ rest) := by
  rw [toList_renderLiteral, List.append_assoc]
  cases lit.ignoreCase with
  | false => exact begins_literal lit.text hr.clear hr.unassigned
  | true =>
    have hbare : Bare ('i' :: rest) := bare_cons (by decide) (by decide)
    refine begins_literal lit.text (clear_bare hbare) ?_
    change (ahead ('i' :: rest)).head? ≠ some '='
    rw [ahead_bare hbare]
    exact fun he => absurd (Option.some.inj he) (by decide)

/-- What comes behind a prefix operator begins an element with it. -/
theorem begins_prefixed {c : Char} {ts : List Token} (hc : (prefixOperator? c).isSome = true)
    (hrow : Row (.symbol c :: ts) cs) : Begins .prefixed (cs ++ rest) := by
  have hprefixed : ¬ Level.suffixed.rank ≤ Level.prefixed.rank := by decide
  obtain ⟨ds, rfl, -⟩ := row_cons.mp hrow
  rcases prefixOperator?_isSome.mp hc with rfl | rfl | rfl <;>
    exact begins_symbol (by decide) (by decide) (by decide) fun hl => absurd hl hprefixed

/-- What stands in front of a suffix operator begins an element if its expression does, where that
needs no parentheses. -/
theorem begins_suffixed {c : Char} (hs : e.Spelled) (hc : (suffixOperator? c).isSome = true)
    (hrow : Row (e.operand .primary ++ [.symbol c]) cs)
    (h : ∀ {cs rest : List Char}, Row e.tokens cs → Behind .primary rest → e.level = .primary →
      Begins .primary (cs ++ rest)) : Begins .suffixed (cs ++ rest) := by
  obtain ⟨as, bs, rfl, has, hbs⟩ := (row_append (hs.operand_ne_nil _)).mp hrow
  obtain ⟨gap, rfl, hg⟩ := spread_single.mp hbs
  have hprimary : Begins .primary (as ++ (gap ++ c :: rest)) := by
    refine begins_operand has fun hle hinside => ?_
    have hlevel : e.level = .primary := by
      revert hle
      cases e.level <;> decide
    rw [hlevel]
    exact h hinside (behind_suffix hg.slack hc) hlevel
  rw [List.append_assoc, List.append_assoc]
  exact hprimary.mono (by decide)

/-- An expression of a tight level begins an element. -/
theorem Spelled.begins (h : e.Spelled) (hrow : Row e.tokens cs) (hr : Behind e.level rest) :
    Level.labeled.rank ≤ e.level.rank → Begins e.level (cs ++ rest) := by
  induction e using Expr.induct generalizing cs rest with
  | literal span lit =>
    intro hl
    rw [tokens, row_single] at hrow
    rw [hrow]
    exact begins_flagged lit hr
  | charClass span members =>
    intro hl
    rw [tokens, row_single] at hrow
    rw [hrow, Token.text, toList_renderClass]
    exact begins_symbol (by decide) (by decide) (by decide) fun _ => by decide
  | any span =>
    intro hl
    rw [tokens, row_single] at hrow
    rw [hrow]
    exact begins_symbol (by decide) (by decide) (by decide) fun _ => by decide
  | ruleRef span name =>
    intro hl
    rw [tokens, row_single] at hrow
    rw [hrow]
    exact begins_name (h _ List.mem_cons_self) hr
  | predicate span negated code =>
    intro hl
    rw [tokens] at hrow
    exact begins_prefixed (by cases negated <;> rfl) hrow
  | sequence =>
    intro hl
    have hloose : ¬ Level.labeled.rank ≤ Level.sequence.rank := by decide
    exact absurd hl hloose
  | choice =>
    intro hl
    have hloose : ¬ Level.labeled.rank ≤ Level.choice.rank := by decide
    exact absurd hl hloose
  | wrapped span wrapper body ih =>
    intro hl
    obtain ⟨hw, hs⟩ := spelled_wrapped.mp h
    have hbody {as bs : List Char} (has : Row body.tokens as) (hb : Behind .primary bs)
        (hlevel : body.level = .primary) : Begins .primary (as ++ bs) := by
      rw [hlevel] at ih
      exact ih hs has hb (by decide)
    rw [tokens_wrapped] at hrow
    cases wrapper with
    | labeled label =>
      obtain ⟨ds, rfl, hds⟩ := row_cons.mp hrow
      obtain ⟨gap, ds, rfl, hg, -⟩ := spread_cons.mp hds
      rw [List.append_assoc, List.append_assoc]
      exact begins_label hw hg.slack
    | named name => cases hw
    | action code =>
      have hloose : ¬ Level.labeled.rank ≤ Level.action.rank := by decide
      exact absurd hl hloose
    | group =>
      obtain ⟨ds, rfl, -⟩ := row_cons.mp hrow
      exact begins_symbol (by decide) (by decide) (by decide) fun _ => by decide
    | text | followedBy | notFollowedBy => exact begins_prefixed rfl hrow
    | optional | zeroOrMore | oneOrMore => exact begins_suffixed hs rfl hrow hbody

/-- A row of the expression's tokens is read back, with the groups that were added. -/
def IsReadBack (e : Expr) : Prop :=
  ∀ n cs rest, Row e.tokens cs → cs.length ≤ n → Behind e.level rest →
    Reads (e.level.reader (expression n)) cs rest (·.unlocated = e.regroup.unlocated)

/-- In parentheses the expression is read back at the loosest level. -/
theorem IsReadBack.group (ih : e.IsReadBack) (hs : e.Spelled) {n : Nat} (rest : List Char)
    (hrow : Row (.symbol '(' :: (e.tokens ++ [.symbol ')'])) cs) (hn : cs.length ≤ n) :
    Reads (primary (expression n)) cs rest fun found =>
      ∃ span body, found = .wrapped span .group body ∧ body.unlocated = e.regroup.unlocated := by
  have htight : e.operand .choice = e.tokens := operand_tight (Nat.zero_le _)
  obtain ⟨ds, rfl, hds⟩ := row_cons.mp hrow
  obtain ⟨gap, inside, behind, rfl, hg, hinside, hbehind⟩ := hds.split hs.shut.ne_nil
  obtain ⟨gap', rfl, hg'⟩ := spread_single.mp hbehind
  simp only [Token.text, List.length_append, List.length_singleton] at hn
  obtain ⟨m, rfl⟩ : ∃ m, n = m + 1 := ⟨n - 1, by omega⟩
  have hlen : inside.length ≤ m := by omega
  have hclosing (level : Level) : Behind level (gap' ++ ')' :: rest) := behind_closing hg'.slack
  have hbody : Reads (Level.choice.reader (expression m)) inside (gap' ++ ')' :: rest)
      (·.unlocated = e.regroup.unlocated) :=
    (ih m inside _ hinside hlen (hclosing _)).loosen (Nat.zero_le _) (hclosing _)
      (hs.begins hinside (hclosing _))
  exact reads_primary_group hg.trivia hg'.trivia hbody
    (hs.bare (htight.symm ▸ hinside) _)

def Restores (least : Level) (found e : Expr) : Prop :=
  found.unlocated = (least.enclose e.level e.regroup).unlocated

/-- An operand is read back at the level that the notation wants. -/
theorem IsReadBack.operand (ih : e.IsReadBack) (hs : e.Spelled) {n : Nat}
    (hrow : Row (e.operand least) cs) (hn : cs.length ≤ n) (hr : Behind least rest) :
    Reads (least.reader (expression n)) cs rest (Restores least · e) := by
  unfold Restores Level.enclose
  by_cases hl : e.level.rank < least.rank
  · rw [if_pos hl]
    rw [operand_loose hl] at hrow
    have hgroup : Reads (Level.primary.reader (expression n)) _ rest _ := ih.group hs rest hrow hn
    have hprimary : least.rank ≤ Level.primary.rank := by cases least <;> decide
    refine (hgroup.loosen hprimary hr fun _ => ?_).imp fun found ⟨span, body, hfound, hbody⟩ => ?_
    · obtain ⟨ds, rfl, -⟩ := row_cons.mp hrow
      exact begins_symbol (by decide) (by decide) (by decide) fun _ => by decide
    · rw [hfound, unlocated_wrapped, unlocated_wrapped, hbody]
  · have hle : least.rank ≤ e.level.rank := Nat.not_lt.mp hl
    rw [if_neg hl]
    rw [operand_tight hle] at hrow
    exact (ih n cs rest hrow hn (hr.mono hle)).loosen hle hr (hs.begins hrow (hr.mono hle))

section Operands

variable {es : List Expr} {before : Option Token} {n : Nat}

/-- Elements of a sequence stand behind another one, or the sequence ends. -/
theorem behind_elements (hs : ∀ e ∈ es, e.Spelled) (hb : before.all Token.opens = false)
    (hspread : Spread before (es.flatMap (·.operand .labeled)) cs) (hr : Behind .sequence rest) :
    Behind .labeled (cs ++ rest) := by
  induction es generalizing before cs with
  | nil =>
    rw [spread_nil.mp hspread]
    exact hr.mono (by decide)
  | cons e es ih =>
    obtain ⟨he, hs⟩ := List.forall_mem_cons.mp hs
    obtain ⟨gap, as, bs, rfl, hg, has, hbs⟩ := hspread.split (he.operand_ne_nil _)
    have hothers := ih hs (shut_operand he.shut) hbs
    rw [List.append_assoc, List.append_assoc]
    exact behind_element (hg.isGap hb (he.closes_head _))
      (begins_operand has fun hl hrow => he.begins hrow (hothers.mono hl) hl)

theorem collects_elements (hs : ∀ e ∈ es, e.Spelled ∧ e.IsReadBack)
    (hb : before.all Token.opens = false)
    (hspread : Spread before (es.flatMap (·.operand .labeled)) cs) (hn : cs.length ≤ n)
    (hr : Behind .sequence rest) :
    Collects (further atElement (labeled (expression n))) (Restores .labeled) es cs rest := by
  induction es generalizing before cs with
  | nil =>
    rw [spread_nil.mp hspread]
    exact .nil [] rest (further_element_none hr)
  | cons e es ih =>
    obtain ⟨⟨he, hread⟩, hs⟩ := List.forall_mem_cons.mp hs
    obtain ⟨gap, as, bs, rfl, hg, has, hbs⟩ := hspread.split (he.operand_ne_nil _)
    have hgap := hg.isGap hb (he.closes_head _)
    have hne : gap ++ as ≠ [] := by
      obtain ⟨-, c, ds, rfl, -⟩ := hgap
      exact List.cons_ne_nil _ _
    rw [List.length_append, List.length_append] at hn
    have hbehind := behind_elements (fun e he => (hs e he).1) (shut_operand he.shut) hbs hr
    have hbegins := begins_operand has fun hl hrow => he.begins hrow (hbehind.mono hl) hl
    have hitem : Reads (labeled (expression n)) as (bs ++ rest) (Restores .labeled · e) :=
      hread.operand he has (by omega) hbehind
    have hstep : Reads (further atElement (labeled (expression n))) (gap ++ ([] ++ as)) _ _ :=
      reads_further_some hgap.trivia (List.nil_append _ ▸ hbegins.bare) hbegins.element hitem
    rw [← List.append_assoc]
    exact .cons e es _ _ rest hne hstep (ih hs (shut_operand he.shut) hbs (by omega))

/-- A slash and the alternative behind it, in front of others. -/
theorem exists_alternative (he : e.Spelled) {ts : List Token}
    (hspread : Spread before (.symbol '/' :: e.operand .action ++ ts) cs) :
    ∃ gap gap' as bs, cs = gap ++ ('/' :: (gap' ++ (as ++ bs))) ∧ Slack gap ∧ Slack gap' ∧
      Row (e.operand .action) as ∧ Spread (e.operand .action).getLast? ts bs ∧
        ∀ rest, Bare ('/' :: (gap' ++ (as ++ rest))) := by
  obtain ⟨gap, ds, rfl, hg, hds⟩ := spread_cons.mp hspread
  obtain ⟨gap', as, bs, rfl, hg', has, hbs⟩ := hds.split (he.operand_ne_nil _)
  refine ⟨gap, gap', as, bs, rfl, hg.slack, hg'.slack, has, hbs, fun rest => ?_⟩
  obtain ⟨c, ds, rfl, hc⟩ := he.exists_cons has
  rcases hg'.slack with rfl | ⟨-, b, bs, rfl, hb⟩
  · exact bare_slash (fun h => ne_of_beginsExpr hc (by decide) (Option.some.inj h))
      fun h => ne_of_beginsExpr hc (by decide) (Option.some.inj h)
  · refine bare_slash (fun h => ?_) fun h => ?_ <;>
      · cases h
        exact absurd hb (by decide)

/-- Alternatives stand behind another one, or the choice ends. -/
theorem behind_alternatives (hs : ∀ e ∈ es, e.Spelled)
    (hspread : Spread before (es.flatMap fun e => .symbol '/' :: e.operand .action) cs)
    (hr : Behind .choice rest) : Behind .action (cs ++ rest) := by
  cases es with
  | nil =>
    rw [spread_nil.mp hspread]
    exact hr.mono (by decide)
  | cons e es =>
    rw [List.flatMap_cons] at hspread
    obtain ⟨gap, gap', as, bs, rfl, hg, -, -, -, hbare⟩ :=
      exists_alternative (hs e List.mem_cons_self) hspread
    rw [List.append_assoc, List.cons_append, List.append_assoc, List.append_assoc]
    exact behind_slash hg (hbare _)

theorem collects_alternatives (hs : ∀ e ∈ es, e.Spelled ∧ e.IsReadBack)
    (hspread : Spread before (es.flatMap fun e => .symbol '/' :: e.operand .action) cs)
    (hn : cs.length ≤ n) (hr : Behind .choice rest) :
    Collects (further (eat '/') do skipTrivia; action (expression n)) (Restores .action) es cs
      rest := by
  induction es generalizing before cs with
  | nil =>
    rw [spread_nil.mp hspread]
    exact .nil [] rest (further_alternative_none hr)
  | cons e es ih =>
    obtain ⟨⟨he, hread⟩, hs⟩ := List.forall_mem_cons.mp hs
    rw [List.flatMap_cons] at hspread
    obtain ⟨gap, gap', as, bs, rfl, hg, hg', has, hbs, hbare⟩ := exists_alternative he hspread
    simp only [List.length_append, List.length_cons] at hn
    have hbehind := behind_alternatives (fun e he => (hs e he).1) hbs hr
    have hitem : Reads (do skipTrivia; action (expression n)) (gap' ++ as) (bs ++ rest)
        (Restores .action · e) :=
      (reads_trivia hg'.trivia (he.bare has _)).bind fun _ _ =>
        hread.operand he has (by omega) hbehind
    have hstep : Reads (further (eat '/') do skipTrivia; action (expression n))
        (gap ++ (['/'] ++ (gap' ++ as))) _ _ :=
      reads_further_some hg.trivia (by simpa using hbare (bs ++ rest)) (reads_eat '/') hitem
    have htext : gap ++ '/' :: (gap' ++ (as ++ bs)) = gap ++ (['/'] ++ (gap' ++ as)) ++ bs := by
      simp
    rw [htext]
    exact .cons e es _ _ rest (by simp) hstep (ih hs hbs (by omega))

theorem restores_map {found : List Expr} (h : List.Forall₂ (Restores least) found es) :
    found.map unlocated = (regroupOperands least es).map unlocated := by
  rw [regroupOperands_eq_map]
  induction h with
  | nil => rfl
  | cons hfound _ ih =>
    rw [List.map_cons, List.map_cons, List.map_cons, ih]
    exact congrArg (· :: _) hfound

end Operands

def RestoresWrapped (wrapper : Wrapper) (found e : Expr) : Prop :=
  ∃ span inside, found = .wrapped span wrapper inside ∧ Restores wrapper.operandLevel inside e

theorem RestoresWrapped.unlocated_eq {wrapper : Wrapper} {found body : Expr}
    (h : RestoresWrapped wrapper found body) (span : Span) :
    found.unlocated = (wrapped span wrapper body).regroup.unlocated := by
  obtain ⟨span, inside, rfl, hinside⟩ := h
  rw [regroup, unlocated_wrapped, unlocated_wrapped]
  exact congrArg _ hinside

/-- An operator is read back before its operand. -/
theorem IsReadBack.prefixed (ih : e.IsReadBack) (hs : e.Spelled) {c : Char} {wrapper : Wrapper}
    (hc : prefixOperator? c = some wrapper) {n : Nat}
    (hrow : Row (.symbol c :: e.operand .suffixed) cs) (hn : cs.length ≤ n)
    (hr : Behind .prefixed rest) :
    Reads (prefixed (expression n)) cs rest fun found =>
      ∃ span inside, found = .wrapped span wrapper inside ∧ Restores .suffixed inside e := by
  obtain ⟨ds, rfl, hds⟩ := row_cons.mp hrow
  obtain ⟨gap, as, rfl, hg, has⟩ := (spread_iff_row (hs.operand_ne_nil _)).mp hds
  simp only [List.length_append] at hn
  have hbehind : Behind .suffixed rest := hr.mono (by decide)
  have hoperand : Reads (suffixed (expression n)) as rest (Restores .suffixed · e) :=
    ih.operand hs has (by omega) hbehind
  have hbegins : Begins .suffixed (as ++ rest) :=
    begins_operand has fun hle hinside =>
      hs.begins hinside (hbehind.mono hle) (le_trans (by decide) hle)
  obtain ⟨a, ds, ha, -, hprimary⟩ := hbegins.first
  have hread : Reads (prefixed (expression n)) (c :: (gap ++ as)) rest _ :=
    reads_prefix hg.trivia hc hoperand (by rw [ha]; rfl) (hprimary le_rfl)
  exact hread

/-- An operator is read back behind its operand. -/
theorem IsReadBack.suffixed (ih : e.IsReadBack) (hs : e.Spelled) {c : Char} {wrapper : Wrapper}
    (hc : suffixOperator? c = some wrapper) {n : Nat}
    (hrow : Row (e.operand .primary ++ [.symbol c]) cs) (hn : cs.length ≤ n) :
    Reads (suffixed (expression n)) cs rest fun found =>
      ∃ span inside, found = .wrapped span wrapper inside ∧ Restores .primary inside e := by
  obtain ⟨as, bs, rfl, has, hbs⟩ := (row_append (hs.operand_ne_nil _)).mp hrow
  obtain ⟨gap, rfl, hg⟩ := spread_single.mp hbs
  rw [List.length_append] at hn
  have hsome : (suffixOperator? c).isSome = true := by rw [hc]; rfl
  have hbehind : Behind .primary (gap ++ c :: rest) := behind_suffix hg.slack hsome
  exact reads_suffix hg.trivia hc (ih.operand hs has (by omega) hbehind)

/-- A wrapper is read back with its operand. -/
theorem isReadBack_wrapped {wrapper : Wrapper} {body : Expr} (span : Span)
    (hw : wrapper.isSpelled = true) (hs : body.Spelled) (ih : body.IsReadBack) :
    (wrapped span wrapper body).IsReadBack := by
  intro n cs rest hrow hn hr
  rw [tokens_wrapped] at hrow
  suffices h : Reads ((wrapped span wrapper body).level.reader (expression n)) cs rest
      (RestoresWrapped wrapper · body) from h.imp fun found h => h.unlocated_eq span
  cases wrapper with
  | named name => cases hw
  | labeled label =>
    change Row (.name label :: .symbol ':' :: (body.operand .prefixed ++ [])) cs at hrow
    rw [List.append_nil] at hrow
    obtain ⟨ds, rfl, hds⟩ := row_cons.mp hrow
    obtain ⟨gap, ds, rfl, hg, hds⟩ := spread_cons.mp hds
    obtain ⟨gap', as, rfl, hg', has⟩ := (spread_iff_row (hs.operand_ne_nil _)).mp hds
    simp only [List.length_append] at hn
    have hbehind : Behind .labeled rest := hr
    have hoperand : Reads (Notation.prefixed (expression n)) as rest (Restores .prefixed · body) :=
      ih.operand hs has (by omega) (hbehind.mono (by decide) : Behind .prefixed rest)
    have hread : Reads (Notation.labeled (expression n))
        (label.toList ++ (gap ++ ':' :: (gap' ++ as))) rest _ :=
      reads_labeled_some hw hg.slack hg'.trivia hoperand (hs.bare has rest)
    exact hread
  | action code =>
    obtain ⟨as, bs, rfl, has, hbs⟩ := (row_append (hs.operand_ne_nil _)).mp hrow
    obtain ⟨gap, rfl, hg⟩ := spread_single.mp hbs
    rw [List.length_append] at hn
    obtain ⟨ds, hds⟩ := toList_renderCode code
    have hbehind : Behind .sequence (gap ++ ((renderCode code).toList ++ rest)) := by
      rw [hds]
      exact behind_code hg.slack
    have hoperand : Reads (Notation.sequence (expression n)) as _ (Restores .sequence · body) :=
      ih.operand hs has (by omega) hbehind
    exact reads_action_code hg.trivia hw hoperand
  | text | followedBy | notFollowedBy =>
    change Row (_ :: (body.operand .suffixed ++ [])) cs at hrow
    rw [List.append_nil] at hrow
    exact ih.prefixed hs rfl hrow hn hr
  | optional | zeroOrMore | oneOrMore => exact ih.suffixed hs rfl hrow hn
  | group =>
    have htight : body.operand .choice = body.tokens := operand_tight (Nat.zero_le _)
    rw [Wrapper.operandLevel, htight] at hrow
    refine (ih.group hs rest hrow hn).imp fun found h => ?_
    obtain ⟨span, inside, hfound, hinside⟩ := h
    refine ⟨span, inside, hfound, ?_⟩
    rw [Restores, Wrapper.operandLevel, Level.enclose_choice, hinside]

theorem others_ne_nil {R : Expr → Expr → Prop} {found es : List Expr}
    (h : List.Forall₂ R found es) (hlen : 2 ≤ (e :: es).length) : found ≠ [] := by
  rintro rfl
  rw [List.forall₂_nil_left_iff] at h
  rw [h, List.length_singleton] at hlen
  omega

theorem isReadBack_sequence (span : Span) {es : List Expr} (hlen : 2 ≤ es.length)
    (hs : ∀ e ∈ es, e.Spelled ∧ e.IsReadBack) : (sequence span es).IsReadBack := by
  intro n cs rest hrow hn hr
  obtain ⟨e, es, rfl⟩ := List.exists_cons_of_length_pos (Nat.lt_of_lt_of_le Nat.two_pos hlen)
  obtain ⟨⟨he, hread⟩, hes⟩ := List.forall_mem_cons.mp hs
  rw [tokens_sequence, List.flatMap_cons] at hrow
  obtain ⟨as, bs, rfl, has, hbs⟩ := (row_append (he.operand_ne_nil _)).mp hrow
  rw [List.length_append] at hn
  have hbehind := behind_elements (fun e hm => (hes e hm).1) (shut_operand he.shut) hbs hr
  have hfirst : Reads (labeled (expression n)) as _ (Restores .labeled · e) :=
    hread.operand he has (by omega) hbehind
  have hlength : bs.length ≤ n := by omega
  have hothers := collects_elements hes (shut_operand he.shut) hbs hlength hr
  refine (reads_sequence hfirst hothers).imp fun found h => ?_
  obtain ⟨first, others, hf, ho, -, hseveral⟩ := h
  obtain ⟨span, rfl⟩ := hseveral (others_ne_nil ho hlen)
  rw [regroup, unlocated_sequence, unlocated_sequence, restores_map (.cons hf ho)]

theorem isReadBack_choice (span : Span) {es : List Expr} (hlen : 2 ≤ es.length)
    (hs : ∀ e ∈ es, e.Spelled ∧ e.IsReadBack) : (choice span es).IsReadBack := by
  intro n cs rest hrow hn hr
  obtain ⟨e, es, rfl⟩ := List.exists_cons_of_length_pos (Nat.lt_of_lt_of_le Nat.two_pos hlen)
  obtain ⟨⟨he, hread⟩, hes⟩ := List.forall_mem_cons.mp hs
  rw [tokens_choice] at hrow
  obtain ⟨as, bs, rfl, has, hbs⟩ := (row_append (he.operand_ne_nil _)).mp hrow
  rw [List.length_append] at hn
  have hbehind := behind_alternatives (fun e hm => (hes e hm).1) hbs hr
  have hfirst : Reads (action (expression n)) as _ (Restores .action · e) :=
    hread.operand he has (by omega) hbehind
  have hlength : bs.length ≤ n := by omega
  have hothers := collects_alternatives hes hbs hlength hr
  refine (reads_choice hfirst hothers).imp fun found h => ?_
  obtain ⟨first, others, hf, ho, -, hseveral⟩ := h
  obtain ⟨span, rfl⟩ := hseveral (others_ne_nil ho hlen)
  rw [regroup, unlocated_choice, unlocated_choice, restores_map (.cons hf ho)]

/-- What can be written is read back. -/
theorem Spelled.isReadBack (h : e.Spelled) : e.IsReadBack := by
  induction e using Expr.induct with
  | literal span lit =>
    intro n cs rest hrow hn hr
    rw [tokens, row_single] at hrow
    rw [regroup_literal, hrow]
    refine (reads_primary_literal lit hr.flag).imp fun found h => ?_
    obtain ⟨span, hfound⟩ := h
    rw [hfound]
    rfl
  | charClass span members =>
    intro n cs rest hrow hn hr
    have ho : ∀ part ∈ members.parts, part.isOrdered = true :=
      List.all_eq_true.mp (h _ List.mem_cons_self)
    rw [tokens, row_single] at hrow
    rw [regroup_charClass, hrow]
    refine (reads_primary_class ho hr.flag).imp fun found h => ?_
    obtain ⟨span, hfound⟩ := h
    rw [hfound]
    rfl
  | any span =>
    intro n cs rest hrow hn hr
    rw [tokens, row_single] at hrow
    rw [regroup_any, hrow]
    refine reads_primary_any.imp fun found h => ?_
    obtain ⟨span, hfound⟩ := h
    rw [hfound]
    rfl
  | ruleRef span name =>
    intro n cs rest hrow hn hr
    rw [tokens, row_single] at hrow
    rw [regroup_ruleRef, hrow]
    refine (reads_primary_ref (h _ List.mem_cons_self) hr.ends).imp fun found h => ?_
    obtain ⟨span, hfound⟩ := h
    rw [hfound]
    rfl
  | predicate span negated code =>
    intro n cs rest hrow hn hr
    rw [tokens] at hrow
    obtain ⟨ds, rfl, hds⟩ := row_cons.mp hrow
    obtain ⟨gap, rfl, hg⟩ := spread_single.mp hds
    have hread : Reads (Notation.prefixed (expression n)) _ rest _ :=
      reads_predicate negated hg.trivia (h _ List.mem_cons_self)
    rw [regroup_predicate]
    refine hread.imp fun found h => ?_
    obtain ⟨span, hfound⟩ := h
    rw [hfound]
    rfl
  | sequence span es ih =>
    obtain ⟨hlen, hs⟩ := spelled_sequence.mp h
    exact isReadBack_sequence span hlen fun e he => ⟨hs e he, ih e he (hs e he)⟩
  | choice span es ih =>
    obtain ⟨hlen, hs⟩ := spelled_choice.mp h
    exact isReadBack_choice span hlen fun e he => ⟨hs e he, ih e he (hs e he)⟩
  | wrapped span wrapper body ih =>
    obtain ⟨hw, hs⟩ := spelled_wrapped.mp h
    exact isReadBack_wrapped span hw hs (ih hs)

end Expr

end Peg
