import Peg.Proofs.Operands

/-! Grammars are read back from texts of their tokens: the rules one after the other, each up to its
semicolon or the name that the next one declares, and with them the whole text. -/
namespace Peg

open Notation

namespace Rule

/-- The rule without spans, made of its display name and its body. -/
theorem unlocated_regroup (rule : Rule) : rule.regroup.unlocated =
    ⟨rule.name, match rule.displayName with
      | some name => .wrapped .none (.named name) rule.body.regroup.unlocated
      | none => rule.body.regroup.unlocated, .none⟩ := by
  unfold unlocated regroup displayName body
  cases h : rule.expr.asNamed? with
  | none => rfl
  | some named =>
    obtain ⟨span, hexpr⟩ := Expr.exists_of_asNamed? h
    rw [hexpr, Expr.regroup, Expr.unlocated_wrapped, Wrapper.operandLevel, Level.enclose_choice]
    rfl

end Rule

namespace Notation

section Headers

variable {display : Option String} {gap cs rest : List Char}

/-- What stands between the name of a rule and the operator. -/
inductive Header : Option String → List Char → Prop where
  | plain (gap : List Char) (hg : Slack gap) : Header none gap
  | display (name : String) (gap gap' : List Char) (hg : Slack gap) (hg' : Slack gap') :
      Header (some name) (gap ++ ((quote name).toList ++ gap'))

theorem bare_assignment (rest : List Char) : Bare ('=' :: rest) :=
  bare_cons (by decide) (by decide)

/-- No name goes on in a header. -/
theorem Header.ends (h : Header display cs) (rest : List Char) :
    ∀ c, (cs ++ '=' :: rest).head? = some c → isNamePart c = false := by
  cases h with
  | plain gap hg => exact hg.ends (by decide)
  | display name gap gap' hg hg' =>
    rw [toList_quote, List.append_assoc]
    exact hg.ends (by decide)

/-- With a header behind it, a name is declared. -/
theorem Header.declares (h : Header display cs) (rest : List Char) :
    Declares true (cs ++ '=' :: rest) := by
  have hahead {gap : List Char} (hg : Slack gap) : ahead (gap ++ '=' :: rest) = '=' :: rest :=
    ahead_append hg.trivia (bare_assignment rest)
  have hclear {gap : List Char} (hg : Slack gap) : Clear (gap ++ '=' :: rest) :=
    clear_append hg.trivia (bare_assignment rest)
  cases h with
  | plain gap hg =>
    have hd := declares_of_ahead (hclear hg) (by rw [hahead hg]; rfl)
    rwa [hahead hg] at hd
  | display name gap gap' hg hg' =>
    have hd := declares_literal name hg.trivia (hclear hg')
    rw [hahead hg'] at hd
    rw [List.append_assoc, List.append_assoc]
    exact hd

theorem reads_displayName (name : String) (hg : Slack gap) (rest : List Char) :
    Reads displayName ((quote name).toList ++ gap) ('=' :: rest)
      fun found => ∃ start, found = some (name, start) := by
  refine Reads.get_bind fun start hstart => ?_
  have hpeek : start.peek.any isQuote = true := by
    rw [Cursor.peek, hstart, toList_quote]
    rfl
  rw [if_pos hpeek]
  refine (reads_stringLiteral name _).bind fun found hfound => ?_
  subst hfound
  refine (reads_trivia hg.trivia (bare_assignment rest)).bind_end fun _ _ => ?_
  exact reads_pure ⟨start, rfl⟩

theorem reads_displayName_none (rest : List Char) :
    Reads displayName [] ('=' :: rest) (· = none) := by
  refine Reads.get_bind fun start hstart => ?_
  have hpeek : ¬ start.peek.any isQuote = true := by
    rw [Cursor.peek, hstart]
    exact Bool.false_ne_true
  rw [if_neg hpeek]
  exact reads_pure rfl

/-- A header is read with what follows it. -/
theorem Header.reads {α : Type} {f : Option (String × Cursor) → Reader α} {P : α → Prop}
    (h : Header display cs) {ds : List Char}
    (hf : ∀ found, found.map (·.1) = display → Reads (f found) ('=' :: ds) rest P) :
    Reads (do skipTrivia; f (← displayName)) (cs ++ '=' :: ds) rest P := by
  cases h with
  | plain gap hg =>
    refine (reads_trivia hg.trivia (bare_assignment _)).bind fun _ _ => ?_
    refine Reads.bind_still (reads_displayName_none _) fun found hfound => hf found ?_
    rw [hfound]
    rfl
  | display name gap gap' hg hg' =>
    have hbare : Bare ((quote name).toList ++ gap' ++ '=' :: ds ++ rest) := by
      rw [toList_quote]
      exact bare_cons (by decide) (by decide)
    rw [List.append_assoc]
    refine (reads_trivia hg.trivia hbare).bind fun _ _ => ?_
    refine Reads.bind (reads_displayName name hg' _) fun found ⟨start, hfound⟩ => hf found ?_
    rw [hfound]
    rfl

/-- A row of a rule's tokens has the name, a header and a row of the body's tokens. -/
theorem exists_of_rowRule {rule : Rule} (hs : rule.body.Spelled) (hrow : Row rule.tokens cs) :
    ∃ header gap body, cs = rule.name.toList ++ (header ++ '=' :: (gap ++ body)) ∧
      Header rule.displayName header ∧ Slack gap ∧ Row rule.body.tokens body := by
  obtain ⟨ds, rfl, hds⟩ := row_cons.mp hrow
  unfold Rule.displayTokens at hds
  cases hdisplay : rule.displayName with
  | none =>
    rw [hdisplay] at hds
    obtain ⟨gap, ds, rfl, hg, hds⟩ := spread_cons.mp hds
    obtain ⟨gap', body, rfl, hg', hbody⟩ := (spread_iff_row hs.shut.ne_nil).mp hds
    exact ⟨gap, gap', body, rfl, .plain gap hg.slack, hg'.slack, hbody⟩
  | some name =>
    rw [hdisplay] at hds
    obtain ⟨gap, ds, rfl, hg, hds⟩ := spread_cons.mp hds
    obtain ⟨gap', ds, rfl, hg', hds⟩ := spread_cons.mp hds
    obtain ⟨gap'', body, rfl, hg'', hbody⟩ := (spread_iff_row hs.shut.ne_nil).mp hds
    refine ⟨gap ++ ((quote name).toList ++ gap'), gap'', body, ?_,
      .display name gap gap' hg.slack hg'.slack, hg''.slack, hbody⟩
    simp [Token.text, Literal.render]

end Headers

section Rules

variable {rule : Rule} {gap cs ending rest : List Char}

/-- What ends a rule in front of `rest`: a semicolon, or nothing. -/
structure Ending (ending rest : List Char) : Prop where
  behind : Behind .choice (ending ++ rest)
  reads : Reads (further (eat ';') (pure ())) ending rest fun _ => True

theorem ending_semicolon (hg : Slack gap) (rest : List Char) : Ending (gap ++ [';']) rest where
  behind := by
    rw [List.append_assoc]
    exact behind_semicolon hg
  reads := by
    have hbare : Bare ([';'] ++ ([] ++ rest)) := bare_cons (by decide) (by decide)
    have hread : Reads (further (eat ';') (pure ())) (gap ++ ([';'] ++ [])) rest _ :=
      reads_further_some hg.trivia hbare (reads_eat ';') (reads_pure (P := fun _ => True) trivial)
    exact hread.imp fun _ _ => trivial

theorem ending_none (hr : Behind .choice rest) (hs : (ahead rest).head? ≠ some ';') :
    Ending [] rest where
  behind := hr
  reads := (reads_further_none hr.clear (reads_eat_not hs)).imp fun _ _ => trivial

def definition (name : String) (start : Cursor) (display : Option (String × Cursor)) :
    Reader Rule := do
  if ← eat '=' then
    skipTrivia
    let body ← expression ((← get).rest.length + 1)
    let expr ← match display with
      | none => pure body
      | some (text, named) => do pure (Expr.wrapped (← spanFrom named) (.named text) body)
    let span ← spanFrom start
    let _ ← further (eat ';') (pure ())
    return ⟨name, expr, span⟩
  else failHere .missingAssignment

theorem reads_definition (hs : rule.body.Spelled) (hrow : Row rule.body.tokens cs)
    (hg : Slack gap) (hend : Ending ending rest) (start : Cursor)
    {display : Option (String × Cursor)} (hd : display.map (·.1) = rule.displayName) :
    Reads (definition rule.name start display) ('=' :: (gap ++ (cs ++ ending))) rest
      (·.unlocated = rule.regroup.unlocated) := by
  have htight : rule.body.operand .choice = rule.body.tokens := Expr.operand_tight (Nat.zero_le _)
  have hbare : Bare (cs ++ ending ++ rest) := by
    rw [List.append_assoc]
    exact hs.bare (htight.symm ▸ hrow) _
  have hlast (start : Cursor) (e : Expr) : Reads (do
      let span ← spanFrom start
      let _ ← further (eat ';') (pure ())
      return (⟨rule.name, e, span⟩ : Rule)) ending rest fun found =>
        found.unlocated = ⟨rule.name, e.unlocated, .none⟩ := by
    refine (reads_spanFrom start).bind_still fun span _ => ?_
    exact hend.reads.bind_pure fun _ _ => rfl
  rw [rule.unlocated_regroup, ← hd]
  refine Reads.bind (reads_eat '=') fun found hfound => ?_
  subst hfound
  refine Reads.bind (reads_trivia hg.trivia hbare) fun _ _ => ?_
  refine Reads.get_bind fun behind hbehind => ?_
  -- The reader takes as much depth as there is text, which is enough for what was printed.
  have hn : cs.length ≤ behind.rest.length := by
    rw [hbehind, List.length_append, List.length_append]
    omega
  have hbody : Reads (expression (behind.rest.length + 1)) cs (ending ++ rest)
      (·.unlocated = rule.body.regroup.unlocated) := by
    have hr := hend.behind.mono (Nat.zero_le rule.body.level.rank)
    have hread := hs.isReadBack _ cs _ hrow hn hr
    exact hread.loosen (Nat.zero_le _) hend.behind (hs.begins hrow hr)
  refine hbody.bind fun body hbody => ?_
  cases display with
  | none =>
    refine (hlast start body).imp fun found hfound => ?_
    rw [hfound, hbody]
    rfl
  | some display =>
    refine (reads_spanFrom display.2).bind_still fun span _ => ?_
    refine (hlast start _).imp fun found hfound => ?_
    rw [hfound, Expr.unlocated_wrapped, hbody]
    rfl

/-- A rule is read back up to where it ends. -/
theorem reads_rule (hname : isName rule.name = true) (hs : rule.body.Spelled)
    (hrow : Row rule.tokens cs) (hend : Ending ending rest) :
    Reads Notation.rule (cs ++ ending) rest (·.unlocated = rule.regroup.unlocated) := by
  obtain ⟨header, gap, body, rfl, hheader, hg, hbody⟩ := exists_of_rowRule hs hrow
  have htext : rule.name.toList ++ (header ++ '=' :: (gap ++ body)) ++ ending =
      rule.name.toList ++ (header ++ '=' :: (gap ++ (body ++ ending))) := by simp
  rw [htext]
  refine Reads.get_bind fun start _ => ?_
  refine (reads_identifier hname ?_).bind fun found hfound => ?_
  · rw [List.append_assoc]
    exact hheader.ends _
  subst hfound
  refine Reads.get_bind fun stop _ => ?_
  refine (reads_checkReserved hname start stop _).bind_still fun _ _ => ?_
  exact hheader.reads fun display hd => reads_definition hs hbody hg hend start hd

def nextRule : Reader (Option Rule) := do
  skipTrivia
  if (← get).atEnd then return none else return some (← Notation.rule)

theorem reads_nextRule (hg : Trivia gap) (hname : isName rule.name = true) (hs : rule.body.Spelled)
    (hrow : Row rule.tokens cs) (hend : Ending ending rest) :
    Reads nextRule (gap ++ (cs ++ ending)) rest fun found =>
      ∃ rule', found = some rule' ∧ rule'.unlocated = rule.regroup.unlocated := by
  obtain ⟨c, ds, hc, hstart⟩ := exists_cons_of_isName hname
  obtain ⟨ds', hcs, -⟩ := row_cons.mp hrow
  have htext : cs ++ ending ++ rest = c :: (ds ++ ds' ++ ending ++ rest) := by
    rw [hcs, Token.text, hc]
    rfl
  have hbare : Bare (cs ++ ending ++ rest) := by
    rw [htext]
    exact bare_of_beginsExpr (beginsExpr_iff.mpr (Or.inr hstart))
  refine (reads_trivia hg hbare).bind fun _ _ => Reads.get_bind fun start hs' => ?_
  have hmore : ¬ start.atEnd = true := by
    rw [Cursor.atEnd, hs', htext]
    exact Bool.false_ne_true
  rw [if_neg hmore]
  exact (reads_rule hname hs hrow hend).bind_pure fun rule' h => ⟨rule', rfl, h⟩

end Rules

section Declarations

variable {rules : List Rule} {before : Option Token} {tokens : List Token} {gap cs rest : List Char}

theorem terminated_cons {part : List Token} {parts : List (List Token)} :
    Terminated (part :: parts) tokens ↔ ∃ others, Terminated parts others ∧
      (tokens = part ++ others ∨ tokens = part ++ .symbol ';' :: others) := by
  constructor
  · rintro (_ | ⟨_, _, others, h⟩ | ⟨_, _, others, h⟩)
    · exact ⟨others, h, Or.inl rfl⟩
    · exact ⟨others, h, Or.inr rfl⟩
  · rintro ⟨others, h, rfl | rfl⟩
    · exact .plain part parts others h
    · exact .semicolon part parts others h

/-- The names and the bodies of the rules can be written. -/
def Declared (rules : List Rule) : Prop :=
  ∀ rule ∈ rules, isName rule.name = true ∧ rule.body.Spelled

theorem shut_rule {rule : Rule} (h : rule.body.Spelled) : Shut rule.tokens :=
  (h.shut.append [.symbol '=']).append (.name rule.name :: rule.displayTokens)

/-- The tokens of rules begin with the name of the first one. -/
theorem Terminated.exists_name {rule : Rule}
    (h : Terminated ((rule :: rules).map Rule.tokens) tokens) :
    ∃ others, tokens = .name rule.name :: others := by
  obtain ⟨others, -, rfl | rfl⟩ := terminated_cons.mp h <;> exact ⟨_, rfl⟩

/-- Without a semicolon a rule ends where another one is declared or the text ends. -/
theorem ending_rules (hrules : Declared rules) (hterm : Terminated (rules.map Rule.tokens) tokens)
    (hb : before.all Token.opens = false) (hspread : Spread before tokens cs) (hg : Slack gap) :
    Ending [] (cs ++ gap) := by
  cases rules with
  | nil =>
    cases hterm
    rw [spread_nil.mp hspread]
    refine ending_none (behind_end hg) ?_
    have hahead := ahead_append hg.trivia bare_nil
    rw [List.append_nil] at hahead
    rw [List.nil_append, hahead]
    exact nofun
  | cons rule rules =>
    obtain ⟨hname, hs⟩ := hrules rule List.mem_cons_self
    obtain ⟨others, -, htokens⟩ := terminated_cons.mp hterm
    have hsplit : ∃ more, tokens = rule.tokens ++ more := by
      rcases htokens with h | h <;> exact ⟨_, h⟩
    obtain ⟨more, rfl⟩ := hsplit
    obtain ⟨gap', as, bs, rfl, hg', has, -⟩ := hspread.split (List.cons_ne_nil _ _)
    obtain ⟨header, gap'', body, rfl, hheader, -, -⟩ := exists_of_rowRule hs has
    have hgap : Gap gap' := hg'.isGap hb rfl
    have htext : gap' ++ (rule.name.toList ++ (header ++ '=' :: (gap'' ++ body)) ++ bs) ++ gap =
        gap' ++ (rule.name.toList ++ (header ++ '=' :: (gap'' ++ (body ++ (bs ++ gap))))) := by simp
    obtain ⟨c, ds, hc, hstart⟩ := exists_cons_of_isName hname
    rw [htext]
    refine ending_none (behind_rule hgap hname (hheader.ends _) (hheader.declares _)) ?_
    rw [hc, List.cons_append, ahead_append hgap.trivia
      (bare_of_beginsExpr (beginsExpr_iff.mpr (Or.inr hstart)))]
    exact fun he => ne_of_isNameStart hstart (by decide) (Option.some.inj he)

/-- All rules up to the end of the text are read back. -/
theorem collects_rules (hrules : Declared rules)
    (hterm : Terminated (rules.map Rule.tokens) tokens) (hspread : Spread before tokens cs)
    (hg : Slack gap) :
    Collects nextRule (fun found rule => found.unlocated = rule.regroup.unlocated) rules
      (cs ++ gap) [] := by
  induction rules generalizing before tokens cs with
  | nil =>
    cases hterm
    rw [spread_nil.mp hspread]
    refine .nil gap [] ?_
    refine (reads_trivia hg.trivia bare_nil).bind_end fun _ _ => ?_
    refine Reads.get_bind fun stop hstop => ?_
    rw [if_pos (by rw [Cursor.atEnd, hstop]; rfl)]
    exact reads_pure rfl
  | cons rule rules ih =>
    obtain ⟨⟨hname, hs⟩, hrules⟩ := List.forall_mem_cons.mp hrules
    have hstep {gap' as ending rest : List Char} {ts : List Token}
        (hg' : Space before ts.head? gap') (has : Row rule.tokens as) (hend : Ending ending rest)
        (hrest : Collects nextRule (fun found rule => found.unlocated = rule.regroup.unlocated)
          rules rest []) :
        Collects nextRule (fun found rule => found.unlocated = rule.regroup.unlocated)
          (rule :: rules) (gap' ++ (as ++ ending) ++ rest) [] := by
      have hne : gap' ++ (as ++ ending) ≠ [] := by
        obtain ⟨c, ds, hc, -⟩ := exists_cons_of_isName hname
        obtain ⟨ds', rfl, -⟩ := row_cons.mp has
        rw [Token.text, hc]
        simp
      refine .cons rule rules _ rest [] hne ?_ hrest
      rw [List.append_nil]
      exact reads_nextRule hg'.trivia hname hs has hend
    obtain ⟨others, hothers, rfl | rfl⟩ := terminated_cons.mp hterm
    · obtain ⟨gap', as, bs, rfl, hg', has, hbs⟩ := hspread.split (List.cons_ne_nil _ _)
      have hread := hstep hg' has (ending_rules hrules hothers (shut_rule hs) hbs hg)
        (ih hrules hothers hbs)
      rw [List.append_nil] at hread
      rw [List.append_assoc, List.append_assoc]
      rwa [List.append_assoc] at hread
    · obtain ⟨gap', as, bs, rfl, hg', has, hbs⟩ := hspread.split (List.cons_ne_nil _ _)
      obtain ⟨gap'', ds, rfl, hg'', hds⟩ := spread_cons.mp hbs
      have hread := hstep hg' has (ending_semicolon hg''.slack (ds ++ gap)) (ih hrules hothers hds)
      have htext : gap' ++ (as ++ (gap'' ++ ((Token.symbol ';').text ++ ds))) ++ gap =
          gap' ++ (as ++ (gap'' ++ [';'])) ++ (ds ++ gap) := by simp [Token.text]
      rwa [htext]

theorem declared_of_writable {g : Grammar} (h : g.Writable) : Declared g.rules :=
  fun rule hm => ⟨h.names rule hm, h.bodies rule hm⟩

end Declarations

section Grammars

variable {g : Grammar} {tokens : List Token} {gap cs rest : List Char}

theorem reads_initializer_none (h : rest.head? ≠ some '\x7b') :
    Reads initializer [] rest (· = none) := by
  refine Reads.get_bind fun start hstart => ?_
  have hpeek : ¬ start.peek = some '\x7b' := by
    rw [Cursor.peek, hstart]
    exact h
  rw [if_neg hpeek]
  exact reads_pure rfl

/-- The initializer is read back with the trivia and the semicolon behind it. -/
theorem reads_initializer_some {code : String} (hcode : isCode code = true) (hg : Trivia gap)
    (semicolon : Bool) (hb : semicolon = false → Bare rest) (h : rest.head? ≠ some ';') :
    Reads initializer ((renderCode code).toList ++ (gap ++ if semicolon then [';'] else [])) rest
      fun found => ∃ span, found = some ⟨code, span⟩ := by
  have hbare : Bare ((if semicolon then [';'] else []) ++ rest) := by
    cases semicolon with
    | true => exact bare_cons (by decide) (by decide)
    | false => exact hb rfl
  obtain ⟨ds, hds⟩ := toList_renderCode code
  refine Reads.get_bind fun start hstart => ?_
  have hpeek : start.peek = some '\x7b' := by
    rw [Cursor.peek, hstart, hds]
    rfl
  rw [if_pos hpeek]
  refine (reads_codeBlock hcode _).bind fun found hfound => ?_
  subst hfound
  refine (reads_spanFrom start).bind_still fun span _ => ?_
  refine (reads_trivia hg hbare).bind fun _ _ => ?_
  exact (reads_mark semicolon fun _ => h).bind_pure fun _ _ => ⟨span, rfl⟩

/-- A grammar is read from its initializer and its rules, with trivia before them. -/
theorem reads_declarations (h : g.Writable) {opening : List Char} (hg : Trivia gap)
    (hb : Bare (opening ++ rest))
    (hinitializer : Reads initializer opening rest fun found =>
      found.map (⟨·.code, .none⟩) = g.unlocated.initializer)
    (hrules : Collects nextRule (fun found rule => found.unlocated = rule.regroup.unlocated) g.rules
      rest []) :
    Reads grammar (gap ++ (opening ++ rest)) [] (·.unlocated = g.regroup.unlocated) := by
  refine Reads.get_bind fun start _ => ?_
  refine (reads_trivia hg (by rwa [List.append_nil])).bind fun _ _ => ?_
  refine (by rwa [List.append_nil] : Reads _ _ (_ ++ []) _).bind fun found hfound => ?_
  refine hrules.reads.bind_end fun rules' hrules' => ?_
  have hne : ¬ rules'.isEmpty = true := by
    rw [List.isEmpty_iff]
    rintro rfl
    exact h.nonempty (List.forall₂_nil_left_iff.mp hrules')
  have hsame : rules'.map Rule.unlocated = g.regroup.unlocated.rules := by
    have hmap : List.Forall₂ (· = ·) (rules'.map Rule.unlocated)
        (g.rules.map fun rule => rule.regroup.unlocated) :=
      List.forall₂_map_left_iff.mpr (List.forall₂_map_right_iff.mpr hrules')
    rw [List.forall₂_eq_eq_eq] at hmap
    rw [hmap]
    unfold Grammar.regroup Grammar.unlocated
    rw [List.map_map]
    rfl
  rw [if_neg hne]
  refine (reads_spanFrom start).bind_pure fun span _ => ?_
  have hinitializer' : found.map (⟨·.code, .none⟩) = g.regroup.unlocated.initializer := hfound
  rw [Grammar.unlocated, hsame, hinitializer']
  rfl

/-- What the rules begin with. -/
theorem exists_of_rowRules (h : g.Writable) (hterm : Terminated (g.rules.map Rule.tokens) tokens) :
    tokens ≠ [] ∧ ∀ cs, Row tokens cs → ∃ c ds, cs = c :: ds ∧ isNameStart c = true := by
  obtain ⟨rule, rules, hrules⟩ := List.exists_cons_of_ne_nil h.nonempty
  have hname : isName rule.name = true := h.names rule (hrules ▸ List.mem_cons_self)
  rw [hrules] at hterm
  obtain ⟨others, rfl⟩ := hterm.exists_name
  refine ⟨List.cons_ne_nil _ _, fun cs hrow => ?_⟩
  obtain ⟨ds, rfl, -⟩ := row_cons.mp hrow
  obtain ⟨c, ds', hc, hstart⟩ := exists_cons_of_isName hname
  exact ⟨c, ds' ++ ds, by rw [Token.text, hc, List.cons_append], hstart⟩

/-- A grammar with an initializer is read from this and its rules. -/
theorem reads_initialized (h : g.Writable) {i : Initializer} (hi : g.initializer = some i)
    {gap' : List Char} (hg : Trivia gap) (hg' : Trivia gap') (semicolon : Bool)
    (hb : semicolon = false → Bare rest) (hs : rest.head? ≠ some ';')
    (hrules : Collects nextRule (fun found rule => found.unlocated = rule.regroup.unlocated) g.rules
      rest []) :
    Reads grammar (gap ++ ((renderCode i.code).toList ++
      (gap' ++ if semicolon then [';'] else []) ++ rest)) []
      (·.unlocated = g.regroup.unlocated) := by
  obtain ⟨ds, hds⟩ := toList_renderCode i.code
  refine reads_declarations h hg ?_ ?_ hrules
  · rw [hds]
    exact bare_cons (by decide) (by decide)
  · refine (reads_initializer_some (h.initializer i hi) hg' semicolon hb hs).imp
      fun found ⟨span, hfound⟩ => ?_
    rw [hfound, Grammar.unlocated, hi]
    rfl

/-- A grammar is read back from every text that is made of its tokens, with semicolons behind some
of its declarations. -/
theorem reads_grammar {text : List Char} (h : g.Writable) (hterm : Terminated g.declarations tokens)
    (hlaid : Laid tokens text) : Reads grammar text [] (·.unlocated = g.regroup.unlocated) := by
  obtain ⟨cs, trail, rfl, hspread, htrail⟩ := hlaid
  have hne {c : Char} (hc : isNameStart c = true) (d : Char) (hd : isNameStart d = false)
      (ds : List Char) : (c :: ds).head? ≠ some d :=
    fun he => ne_of_isNameStart hc hd (Option.some.inj he)
  have hdeclared := declared_of_writable h
  unfold Grammar.declarations at hterm
  cases hinitializer : g.initializer with
  | none =>
    rw [hinitializer] at hterm
    obtain ⟨hnonempty, hbegins⟩ := exists_of_rowRules h hterm
    obtain ⟨gap, ds, rfl, hg, hrow⟩ := (spread_iff_row hnonempty).mp hspread
    have hrules := collects_rules hdeclared hterm (hrow.spread (space_start _)) htrail.slack
    obtain ⟨c, ds, rfl, hc⟩ := hbegins ds hrow
    have hopening : Reads initializer [] (c :: ds ++ trail) fun found =>
        found.map (⟨·.code, .none⟩) = g.unlocated.initializer := by
      refine (reads_initializer_none (hne hc _ (by decide) _)).imp fun found hfound => ?_
      rw [hfound, Grammar.unlocated, hinitializer]
    have hread : Reads grammar (gap ++ ([] ++ (c :: ds ++ trail))) [] _ :=
      reads_declarations h hg.trivia (bare_of_beginsExpr (beginsExpr_iff.mpr (Or.inr hc)))
        hopening hrules
    rwa [List.nil_append, ← List.append_assoc] at hread
  | some i =>
    rw [hinitializer] at hterm
    obtain ⟨others, hothers, rfl | rfl⟩ := terminated_cons.mp hterm
    · obtain ⟨hnonempty, hbegins⟩ := exists_of_rowRules h hothers
      obtain ⟨gap, ds, rfl, hg, hds⟩ := spread_cons.mp hspread
      obtain ⟨gap', ds, rfl, hg', hrow⟩ := (spread_iff_row hnonempty).mp hds
      have hrules := collects_rules hdeclared hothers (hrow.spread (space_start _)) htrail.slack
      obtain ⟨c, ds, rfl, hc⟩ := hbegins ds hrow
      have hbare : Bare (c :: ds ++ trail) := bare_of_beginsExpr (beginsExpr_iff.mpr (Or.inr hc))
      have hread := reads_initialized h hinitializer hg.trivia hg'.trivia false (fun _ => hbare)
        (hne hc _ (by decide) _) hrules
      simpa [Token.text] using hread
    · obtain ⟨hnonempty, hbegins⟩ := exists_of_rowRules h hothers
      obtain ⟨gap, ds, rfl, hg, hds⟩ := spread_cons.mp hspread
      obtain ⟨gap', ds, rfl, hg', hds⟩ := spread_cons.mp hds
      have hrules := collects_rules hdeclared hothers hds htrail.slack
      obtain ⟨gap'', ds, rfl, hg'', hrow⟩ := (spread_iff_row hnonempty).mp hds
      obtain ⟨c, ds, rfl, hc⟩ := hbegins ds hrow
      have hsemicolon : (gap'' ++ c :: ds ++ trail).head? ≠ some ';' := by
        rcases hg''.slack with rfl | ⟨-, b, bs, rfl, hb⟩
        · exact hne hc _ (by decide) _
        · rintro he
          cases he
          exact absurd hb (by decide)
      have hread := reads_initialized h hinitializer hg.trivia hg'.trivia true
        (fun h => absurd h (by decide)) hsemicolon hrules
      simpa [Token.text] using hread

end Grammars

end Notation

end Peg
