import Peg.Proofs.Spelling
import Peg.Proofs.Trivia

/-! Grammars as rows of tokens. In a text of the tokens there may be any gaps before, between and
behind them, and beside most symbols there need not be any. The text that is printed is one of these
texts. -/
namespace Peg

namespace Notation

/-- A token. The flag of a literal or a class belongs to it. -/
inductive Token where
  | name (name : String)
  | symbol (c : Char)
  | literal (lit : Literal)
  | charClass (members : CharClass)
  | code (code : String)
deriving DecidableEq

namespace Token

def text : Token → List Char
  | name word => word.toList
  | symbol c => [c]
  | literal lit => lit.render.toList
  | charClass members => members.render.toList
  | code block => (renderCode block).toList

/-- Whether the token needs no gap behind it. -/
def opens : Token → Bool
  | symbol c => c ∈ ['(', '$', '&', '!', ':', '=', '/', ';']
  | _ => false

/-- Whether the token needs no gap before it. -/
def closes : Token → Bool
  | symbol c => c ∈ [')', '?', '*', '+', ':', '=', '/', ';']
  | _ => false

end Token

/-- What may stand between two tokens: a gap, or nothing where one of them needs none. At an end of
the text, where a token is missing, none is needed. -/
def Space (before behind : Option Token) (cs : List Char) : Prop :=
  Gap cs ∨ cs = [] ∧ (before.all Token.opens = true ∨ behind.all Token.closes = true)

/-- The text is a row of the tokens with what may stand before each of them. The row follows the
token `before`, if there is one. -/
inductive Spread : Option Token → List Token → List Char → Prop where
  | nil (before : Option Token) : Spread before [] []
  | cons (before : Option Token) (token : Token) (tokens : List Token) (gap cs : List Char)
      (hg : Space before (some token) gap) (h : Spread (some token) tokens cs) :
      Spread before (token :: tokens) (gap ++ (token.text ++ cs))

/-- The text is made of the tokens, with gaps before, between and behind them. -/
def Laid (tokens : List Token) (text : List Char) : Prop :=
  ∃ cs gap, text = cs ++ gap ∧ Spread none tokens cs ∧ Space tokens.getLast? none gap

/-- The tokens of some declarations, with semicolons behind some of these. -/
inductive Terminated : List (List Token) → List Token → Prop where
  | nil : Terminated [] []
  | plain (part : List Token) (parts : List (List Token)) (tokens : List Token)
      (h : Terminated parts tokens) : Terminated (part :: parts) (part ++ tokens)
  | semicolon (part : List Token) (parts : List (List Token)) (tokens : List Token)
      (h : Terminated parts tokens) :
      Terminated (part :: parts) (part ++ .symbol ';' :: tokens)

theorem terminated_flatten (parts : List (List Token)) : Terminated parts parts.flatten := by
  induction parts with
  | nil => exact .nil
  | cons part parts ih => exact .plain part parts parts.flatten ih

end Notation

open Notation

/-- The tokens of an expression of level `level` where the notation wants `least` at least. -/
def Level.parenthesized (least level : Level) (tokens : List Token) : List Token :=
  if level.rank < least.rank then .symbol '(' :: (tokens ++ [.symbol ')']) else tokens

namespace Wrapper

def opening : Wrapper → List Token
  | labeled label => [.name label, .symbol ':']
  | text => [.symbol '$']
  | group => [.symbol '(']
  | followedBy => [.symbol '&']
  | notFollowedBy => [.symbol '!']
  | _ => []

def closing : Wrapper → List Token
  | action code => [.code code]
  | optional => [.symbol '?']
  | zeroOrMore => [.symbol '*']
  | oneOrMore => [.symbol '+']
  | group => [.symbol ')']
  | _ => []

end Wrapper

namespace Expr

mutual

def tokens : Expr → List Token
  | literal _ lit => [.literal lit]
  | charClass _ members => [.charClass members]
  | any _ => [.symbol '.']
  | ruleRef _ name => [.name name]
  | predicate _ negated code => [.symbol (if negated then '!' else '&'), .code code]
  | sequence _ es => (operands .labeled es).flatten
  | choice _ es => [.symbol '/'].intercalate (operands .action es)
  | wrapped _ wrapper body =>
    wrapper.opening ++
      (wrapper.operandLevel.parenthesized body.level body.tokens ++ wrapper.closing)

def operands (least : Level) : List Expr → List (List Token)
  | [] => []
  | e :: es => least.parenthesized e.level e.tokens :: operands least es

end

def operand (least : Level) (e : Expr) : List Token := least.parenthesized e.level e.tokens

end Expr

def Rule.displayTokens (rule : Rule) : List Token :=
  rule.displayName.toList.map fun name => .literal ⟨name, false⟩

def Rule.tokens (rule : Rule) : List Token :=
  .name rule.name :: (rule.displayTokens ++ .symbol '=' :: rule.body.tokens)

/-- The declarations of a grammar, which are its initializer and its rules. -/
def Grammar.declarations (g : Grammar) : List (List Token) :=
  (g.initializer.toList.map fun i => [.code i.code]) ++ g.rules.map Rule.tokens

namespace Notation

section Rows

variable {before behind : Option Token} {t : Token} {ts us : List Token} {cs gap : List Char}

theorem Space.slack (h : Space before behind gap) : Slack gap :=
  Or.symm (h.imp_right And.left)

theorem Space.trivia (h : Space before behind gap) : Trivia gap := h.slack.trivia

/-- Between two tokens that need a gap, there is one. -/
theorem Space.isGap (h : Space before behind gap)
    (hb : before.all Token.opens = false) (hc : behind.all Token.closes = false) : Gap gap := by
  rcases h with h | ⟨-, h | h⟩
  · exact h
  · rw [hb] at h
    cases h
  · rw [hc] at h
    cases h

theorem space_opens (h : t.opens = true) (behind : Option Token) :
    Space (some t) behind [] :=
  Or.inr ⟨rfl, Or.inl h⟩

theorem space_closes (h : t.closes = true) (before : Option Token) :
    Space before (some t) [] :=
  Or.inr ⟨rfl, Or.inr h⟩

/-- At the beginning of a text no gap is needed. -/
theorem space_start (behind : Option Token) : Space none behind [] := Or.inr ⟨rfl, Or.inl rfl⟩

theorem space_blank (before behind : Option Token) : Space before behind [' '] := Or.inl gap_blank

theorem spread_nil : Spread before [] cs ↔ cs = [] := by
  constructor
  · rintro ⟨⟩
    rfl
  · rintro rfl
    exact .nil before

theorem spread_cons : Spread before (t :: ts) cs ↔
    ∃ gap ds, cs = gap ++ (t.text ++ ds) ∧ Space before (some t) gap ∧
      Spread (some t) ts ds := by
  constructor
  · rintro (_ | ⟨_, _, _, gap, ds, hg, h⟩)
    exact ⟨gap, ds, rfl, hg, h⟩
  · rintro ⟨gap, ds, rfl, hg, h⟩
    exact .cons before t ts gap ds hg h

theorem getLast?_cons_or (t : Token) (ts : List Token) (before : Option Token) :
    (t :: ts).getLast?.or before = ts.getLast?.or (some t) := by
  rw [List.getLast?_cons]
  cases ts.getLast? <;> rfl

/-- Two rows, one behind the other, are a row. The second one follows the last token of the first,
or what this follows if it is empty. -/
theorem spread_append : Spread before (ts ++ us) cs ↔
    ∃ as bs, cs = as ++ bs ∧ Spread before ts as ∧ Spread (ts.getLast?.or before) us bs := by
  -- On the first row, since what must stand in front of a token depends on the one before it.
  induction ts generalizing before cs with
  | nil =>
    constructor
    · exact fun h => ⟨[], cs, rfl, .nil before, h⟩
    · rintro ⟨as, bs, rfl, has, hbs⟩
      rw [spread_nil.mp has]
      exact hbs
  | cons t ts ih =>
    rw [List.cons_append, spread_cons, getLast?_cons_or]
    constructor
    · rintro ⟨gap, ds, rfl, hg, h⟩
      obtain ⟨as, bs, rfl, has, hbs⟩ := ih.mp h
      refine ⟨gap ++ (t.text ++ as), bs, ?_, .cons before t ts gap as hg has, hbs⟩
      rw [List.append_assoc, List.append_assoc]
    · rintro ⟨as, bs, rfl, has, hbs⟩
      obtain ⟨gap, ds, rfl, hg, h⟩ := spread_cons.mp has
      refine ⟨gap, ds ++ bs, ?_, hg, ih.mpr ⟨ds, bs, rfl, h, hbs⟩⟩
      rw [List.append_assoc, List.append_assoc]

def Row (tokens : List Token) (cs : List Char) : Prop :=
  ∃ t others ds, tokens = t :: others ∧ cs = t.text ++ ds ∧ Spread (some t) others ds

theorem row_cons : Row (t :: ts) cs ↔ ∃ ds, cs = t.text ++ ds ∧ Spread (some t) ts ds := by
  constructor
  · rintro ⟨_, _, ds, htokens, hcs, h⟩
    cases htokens
    exact ⟨ds, hcs, h⟩
  · rintro ⟨ds, hcs, h⟩
    exact ⟨t, ts, ds, rfl, hcs, h⟩

theorem Row.ne_nil (h : Row ts cs) : ts ≠ [] := by
  obtain ⟨t, others, ds, rfl, -, -⟩ := h
  exact List.cons_ne_nil t others

/-- A row has its first token behind what may stand before it. -/
theorem spread_iff_row (hts : ts ≠ []) : Spread before ts cs ↔
    ∃ gap ds, cs = gap ++ ds ∧ Space before ts.head? gap ∧ Row ts ds := by
  obtain ⟨t, ts, rfl⟩ := List.exists_cons_of_ne_nil hts
  constructor
  · intro h
    obtain ⟨gap, ds, rfl, hg, h⟩ := spread_cons.mp h
    exact ⟨gap, t.text ++ ds, rfl, hg, row_cons.mpr ⟨ds, rfl, h⟩⟩
  · rintro ⟨gap, ds, rfl, hg, hrow⟩
    obtain ⟨ds, rfl, h⟩ := row_cons.mp hrow
    exact .cons before t ts gap ds hg h

theorem Row.spread (h : Row ts cs) (hg : Space before ts.head? gap) :
    Spread before ts (gap ++ cs) :=
  (spread_iff_row h.ne_nil).mpr ⟨gap, cs, rfl, hg, h⟩

theorem row_append (hts : ts ≠ []) : Row (ts ++ us) cs ↔
    ∃ as bs, cs = as ++ bs ∧ Row ts as ∧ Spread ts.getLast? us bs := by
  obtain ⟨t, ts, rfl⟩ := List.exists_cons_of_ne_nil hts
  have hlast : (t :: ts).getLast? = ts.getLast?.or (some t) := by
    rw [← getLast?_cons_or t ts none, Option.or_none]
  rw [List.cons_append, row_cons, hlast]
  constructor
  · rintro ⟨ds, rfl, h⟩
    obtain ⟨as, bs, rfl, has, hbs⟩ := spread_append.mp h
    exact ⟨t.text ++ as, bs, (List.append_assoc ..).symm, row_cons.mpr ⟨as, rfl, has⟩, hbs⟩
  · rintro ⟨as, bs, rfl, has, hbs⟩
    obtain ⟨ds, rfl, h⟩ := row_cons.mp has
    exact ⟨ds ++ bs, List.append_assoc .., spread_append.mpr ⟨ds, bs, rfl, h, hbs⟩⟩

/-- A row of tokens and further ones has a part for each. -/
theorem Spread.split (h : Spread before (ts ++ us) cs) (hts : ts ≠ []) :
    ∃ gap as bs, cs = gap ++ (as ++ bs) ∧ Space before ts.head? gap ∧ Row ts as ∧
      Spread ts.getLast? us bs := by
  have hhead : (ts ++ us).head? = ts.head? := by
    obtain ⟨t, ts, rfl⟩ := List.exists_cons_of_ne_nil hts
    rfl
  have hne : ts ++ us ≠ [] := List.append_ne_nil_of_left_ne_nil hts us
  obtain ⟨gap, ds, rfl, hg, hrow⟩ := (spread_iff_row hne).mp h
  obtain ⟨as, bs, rfl, has, hbs⟩ := (row_append hts).mp hrow
  exact ⟨gap, as, bs, rfl, hhead ▸ hg, has, hbs⟩

theorem row_single : Row [t] cs ↔ cs = t.text := by
  rw [row_cons]
  constructor
  · rintro ⟨ds, rfl, h⟩
    rw [spread_nil.mp h, List.append_nil]
  · rintro rfl
    exact ⟨[], (List.append_nil _).symm, .nil _⟩

theorem spread_single : Spread before [t] cs ↔
    ∃ gap, cs = gap ++ t.text ∧ Space before (some t) gap := by
  rw [spread_iff_row (List.cons_ne_nil t [])]
  constructor
  · rintro ⟨gap, ds, rfl, hg, h⟩
    exact ⟨gap, by rw [row_single.mp h], hg⟩
  · rintro ⟨gap, rfl, hg⟩
    exact ⟨gap, t.text, rfl, hg, row_single.mpr rfl⟩

theorem Row.cons (h : Row ts cs) (hg : Space (some t) ts.head? gap) :
    Row (t :: ts) (t.text ++ (gap ++ cs)) :=
  row_cons.mpr ⟨gap ++ cs, rfl, h.spread hg⟩

theorem Row.snoc (h : Row ts cs) (hg : Space ts.getLast? (some t) gap) :
    Row (ts ++ [t]) (cs ++ (gap ++ t.text)) :=
  (row_append h.ne_nil).mpr ⟨cs, gap ++ t.text, rfl, h, spread_single.mpr ⟨gap, rfl, hg⟩⟩

end Rows

theorem toList_intercalate_cons (sep text : String) (texts : List String) :
    (sep.intercalate (text :: texts)).toList =
      text.toList ++ texts.flatMap fun next => sep.toList ++ next.toList := by
  induction texts generalizing text with
  | nil => rw [String.intercalate_singleton, List.flatMap_nil, List.append_nil]
  | cons next texts ih =>
    rw [String.intercalate_cons_cons, String.toList_append, String.toList_append, ih,
      List.flatMap_cons, List.append_assoc, List.append_assoc]

theorem intercalate_cons (sep ts : List Token) (tss : List (List Token)) :
    sep.intercalate (ts :: tss) = ts ++ tss.flatMap (sep ++ ·) := by
  induction tss generalizing ts with
  | nil => rw [List.intercalate_singleton, List.flatMap_nil, List.append_nil]
  | cons us tss ih =>
    rw [List.intercalate_cons_cons, ih, List.flatMap_cons, List.append_assoc, List.append_assoc]

/-- Rows, each with what may stand before it, are a row. -/
theorem spread_flatMap {α : Type} {f : α → List Token} {text : α → List Char} {items : List α}
    (h : ∀ item ∈ items, ∀ before, Spread before (f item) (text item)) (before : Option Token) :
    Spread before (items.flatMap f) (items.flatMap text) := by
  induction items generalizing before with
  | nil => exact .nil before
  | cons item items ih =>
    obtain ⟨hitem, hitems⟩ := List.forall_mem_cons.mp h
    exact spread_append.mpr ⟨_, _, rfl, hitem before, ih hitems _⟩

end Notation

namespace Expr

variable {e : Expr} {least : Level}

/-- Too loose a level is put into parentheses. -/
theorem operand_loose (h : e.level.rank < least.rank) :
    e.operand least = .symbol '(' :: (e.tokens ++ [.symbol ')']) := if_pos h

theorem operand_tight (h : least.rank ≤ e.level.rank) : e.operand least = e.tokens :=
  if_neg (Nat.not_lt.mpr h)

theorem operands_eq_map (least : Level) (es : List Expr) :
    operands least es = es.map (operand least) := by
  induction es with
  | nil => rw [operands, List.map_nil]
  | cons e es ih => rw [operands, List.map_cons, ih, operand]

theorem tokens_sequence (span : Span) (es : List Expr) :
    (sequence span es).tokens = es.flatMap (operand .labeled) := by
  rw [tokens, operands_eq_map, List.flatMap_def]

theorem tokens_choice (span : Span) (e : Expr) (es : List Expr) :
    (choice span (e :: es)).tokens =
      e.operand .action ++ es.flatMap fun next => .symbol '/' :: next.operand .action := by
  rw [tokens, operands_eq_map, List.map_cons, intercalate_cons, List.flatMap_map]
  rfl

theorem tokens_wrapped (span : Span) (wrapper : Wrapper) (body : Expr) :
    (wrapped span wrapper body).tokens =
      wrapper.opening ++ (body.operand wrapper.operandLevel ++ wrapper.closing) := by
  rw [tokens, operand]

end Expr

section Printing

variable {ts : List Token}

/-- What is printed in parentheses is a row of its tokens in parentheses. -/
theorem Level.row_parenthesize (least level : Level) {text : String} (h : Row ts text.toList) :
    Row (least.parenthesized level ts) (least.parenthesize level text).toList := by
  unfold parenthesized parenthesize
  split_ifs
  · have hclosed : Row (ts ++ [.symbol ')']) (text.toList ++ ([] ++ [')'])) :=
      h.snoc (space_closes rfl _)
    have hrow := hclosed.cons (space_opens (t := .symbol '(') rfl _)
    rw [String.toList_append, String.toList_append, List.append_assoc]
    exact hrow
  · exact h

/-- What is printed of a wrapper is a row of its tokens around those of the operand. -/
theorem Wrapper.row_around (wrapper : Wrapper) {operand : String} (h : Row ts operand.toList) :
    Row (wrapper.opening ++ (ts ++ wrapper.closing)) (wrapper.around operand).toList := by
  have hbefore {c : Char} (hc : (Token.symbol c).opens = true) :
      Row (.symbol c :: (ts ++ [])) (c :: operand.toList) := by
    rw [List.append_nil]
    exact h.cons (space_opens hc _)
  have hbehind {c : Char} (hc : (Token.symbol c).closes = true) :
      Row (ts ++ [.symbol c]) (operand.toList ++ [c]) :=
    h.snoc (space_closes hc _)
  cases wrapper with
  | labeled label =>
    have hlabel := (hbefore (c := ':') rfl).cons (t := .name label) (space_closes rfl _)
    unfold around
    rw [String.toList_append, String.toList_append, List.append_assoc]
    exact hlabel
  | named name =>
    change Row (ts ++ []) operand.toList
    rwa [List.append_nil]
  | action code =>
    have hcode := h.snoc (t := .code code) (space_blank _ _)
    unfold around
    rw [String.toList_append, String.toList_append, List.append_assoc]
    exact hcode
  | text | followedBy | notFollowedBy =>
    unfold around
    rw [String.toList_append]
    exact hbefore rfl
  | optional | zeroOrMore | oneOrMore =>
    unfold around
    rw [String.toList_append]
    exact hbehind rfl
  | group =>
    have hrow := (hbehind (c := ')') rfl).cons (space_opens (t := .symbol '(') rfl _)
    unfold around
    rw [String.toList_append, String.toList_append, List.append_assoc]
    exact hrow

/-- What is printed of an expression is a row of its tokens. -/
theorem Expr.Spelled.row_render {e : Expr} (h : e.Spelled) : Row e.tokens e.render.toList := by
  induction e using Expr.induct with
  | literal | charClass | any | ruleRef =>
    rw [tokens, render]
    exact row_single.mpr rfl
  | predicate span negated code =>
    have hopens : (Token.symbol (if negated then '!' else '&')).opens = true := by
      cases negated <;> rfl
    have hrow := (row_single.mpr rfl : Row [.code code] _).cons (space_opens hopens _)
    rw [tokens, render, String.toList_append]
    cases negated <;> exact hrow
  | sequence span es ih =>
    obtain ⟨hlen, hs⟩ := spelled_sequence.mp h
    obtain ⟨e, es, rfl⟩ := List.exists_cons_of_length_pos (Nat.lt_of_lt_of_le Nat.two_pos hlen)
    have hrow (e' : Expr) (hm : e' ∈ e :: es) : Row (e'.operand .labeled)
        (Level.labeled.parenthesize e'.level e'.render).toList :=
      Level.row_parenthesize _ _ (ih e' hm (hs e' hm))
    have hothers := spread_flatMap (f := operand .labeled)
      (fun next hm before => (hrow next (List.mem_cons_of_mem e hm)).spread (space_blank before _))
      (e.operand .labeled).getLast?
    have hall := (row_append (hrow e List.mem_cons_self).ne_nil).mpr
      ⟨_, _, rfl, hrow e List.mem_cons_self, hothers⟩
    rw [tokens_sequence, List.flatMap_cons, render, renderOperands_eq_map, List.map_cons,
      toList_intercalate_cons, List.flatMap_map]
    exact hall
  | choice span es ih =>
    obtain ⟨hlen, hs⟩ := spelled_choice.mp h
    obtain ⟨e, es, rfl⟩ := List.exists_cons_of_length_pos (Nat.lt_of_lt_of_le Nat.two_pos hlen)
    have hrow (e' : Expr) (hm : e' ∈ e :: es) : Row (e'.operand .action)
        (Level.action.parenthesize e'.level e'.render).toList :=
      Level.row_parenthesize _ _ (ih e' hm (hs e' hm))
    have hnext (next : Expr) (hm : next ∈ es) := (hrow next (List.mem_cons_of_mem e hm)).cons
      (t := .symbol '/') (space_blank _ _)
    have hothers := spread_flatMap (f := fun next => .symbol '/' :: next.operand .action)
      (fun next hm before => (hnext next hm).spread (space_blank before _))
      (e.operand .action).getLast?
    have hall := (row_append (hrow e List.mem_cons_self).ne_nil).mpr
      ⟨_, _, rfl, hrow e List.mem_cons_self, hothers⟩
    rw [tokens_choice, render, renderOperands_eq_map, List.map_cons, toList_intercalate_cons,
      List.flatMap_map]
    exact hall
  | wrapped span wrapper body ih =>
    obtain ⟨-, hs⟩ := spelled_wrapped.mp h
    rw [tokens_wrapped, render]
    exact wrapper.row_around (Level.row_parenthesize _ _ (ih hs))

/-- What is printed of a rule is a row of its tokens. -/
theorem Rule.row_render {rule : Rule} (h : rule.body.Spelled) :
    Row rule.tokens rule.render.toList := by
  have hassign := h.row_render.cons (t := .symbol '=') (space_blank _ _)
  have hlist : (" = " : String).toList = [' ', '=', ' '] := rfl
  unfold tokens displayTokens render
  cases rule.displayName with
  | none =>
    have hrow := hassign.cons (t := .name rule.name) (space_blank _ _)
    rw [String.toList_append, String.toList_append, String.toList_append, hlist]
    simpa [Token.text] using hrow
  | some display =>
    have hdisplay := hassign.cons (t := .literal ⟨display, false⟩) (space_blank _ _)
    have hrow := hdisplay.cons (t := .name rule.name) (space_blank _ _)
    rw [String.toList_append, String.toList_append, String.toList_append, hlist]
    simpa [Token.text, Literal.render] using hrow

theorem laid_of_row {cs gap : List Char} (h : Row ts cs) (hg : Gap gap) : Laid ts (cs ++ gap) :=
  ⟨cs, gap, rfl, h.spread (space_start _), Or.inl hg⟩

/-- What is printed of a grammar is made of its tokens. -/
theorem Grammar.Writable.laid_text {g : Grammar} (h : g.Writable) :
    Laid g.declarations.flatten g.text.toList := by
  obtain ⟨rule, rules, hrules⟩ := List.exists_cons_of_ne_nil h.nonempty
  have hbodies := h.bodies
  rw [hrules] at hbodies
  obtain ⟨hbody, hbodies⟩ := List.forall_mem_cons.mp hbodies
  have hothers := spread_flatMap (f := Rule.tokens)
    (fun next hm before => (Rule.row_render (hbodies next hm)).spread
      (Or.inl gap_newline : Space before _ ['\n'])) rule.tokens.getLast?
  have hrow : Row (rule.tokens ++ rules.flatMap Rule.tokens)
      ("\n".intercalate (g.rules.map Rule.render)).toList := by
    rw [hrules, List.map_cons, toList_intercalate_cons, List.flatMap_map]
    exact (row_append (Rule.row_render hbody).ne_nil).mpr
      ⟨_, _, rfl, Rule.row_render hbody, hothers⟩
  have htokens : (g.rules.map Rule.tokens).flatten = rule.tokens ++ rules.flatMap Rule.tokens := by
    rw [hrules, List.map_cons, List.flatten_cons, List.flatMap_def]
  unfold Grammar.declarations Grammar.text Grammar.initializerText
  rw [List.flatten_append, htokens, String.toList_append, String.toList_append]
  cases hinitializer : g.initializer with
  | none => exact laid_of_row hrow gap_newline
  | some i =>
    have hgap : Gap ['\n', '\n'] :=
      ⟨.blank '\n' _ (by decide) trivia_newline, '\n', _, rfl, by decide⟩
    have hall := hrow.cons (t := .code i.code) (Or.inl hgap)
    dsimp only
    rw [String.toList_append, List.append_assoc (renderCode i.code).toList]
    exact laid_of_row hall gap_newline

end Printing

end Peg
