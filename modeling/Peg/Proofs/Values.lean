import Peg.Proofs.Consumption
import Peg.Proofs.Positions
import Peg.Proofs.Refinement
import Peg.Proofs.ValueShapes

/-! The values of matches. Without actions, a value holds exactly the text that the match has gone
past, and has the shape of the expression that was matched. Every way of putting matchers together
keeps this up, and so do rules, as the memo gives back only what they have come to. -/
namespace Peg

variable {σ α ε : Type} {text : Cursor} {Kept : RuleId → Cursor → RuleResult α → Prop}

namespace Cursor

/-- What stands between two places. -/
def Spells (start stop : Cursor) (between : String) : Prop :=
  start.rest = between.toList ++ stop.rest

theorem spells_refl (c : Cursor) : c.Spells c "" := rfl

theorem Spells.append {a b c : Cursor} {front back : String} (h : a.Spells b front)
    (h' : b.Spells c back) : a.Spells c (front ++ back) := by
  rw [Spells, h, h', String.toList_append, List.append_assoc]

theorem Spells.offset_eq {start stop : Cursor} {between : String} (h : start.Spells stop between)
    (hr : start.Reaches stop) : stop.offset = start.offset + between.utf8ByteSize := by
  obtain ⟨n, rfl⟩ := hr
  have hcount := offset_add_byteCount_skip n start
  rw [h, byteCount_append, byteCount_toList] at hcount
  omega

theorem spells_next {c : Cursor} {a : Char} (h : c.peek = some a) : c.Spells c.next a.toString := by
  obtain ⟨rest, hr⟩ := peek_eq_some h
  rw [Spells, next_of_rest hr, hr, Char.toString, String.toList_singleton]
  rfl

theorem rest_of_skipPrefix {cs : List Char} {c stop : Cursor} (h : skipPrefix cs c = some stop) :
    c.rest = cs ++ stop.rest := by
  induction cs generalizing c with
  | nil => cases h; rfl
  | cons a cs ih =>
    rw [skipPrefix] at h
    split at h
    · rename_i hp
      obtain ⟨rest, hr⟩ := peek_eq_some hp
      have hi := ih h
      rw [next_of_rest hr] at hi
      rw [hr, List.cons_append, ← hi]
    · cases h

/-- Characters fill as many bytes as they have. -/
theorem takeBytes_byteCount (front back : List Char) :
    takeBytes (byteCount front) (front ++ back) = front := by
  induction front with
  | nil => cases back <;> rfl
  | cons a front ih =>
    have hpos := Char.utf8Size_pos a
    have hne : byteCount (a :: front) ≠ 0 := by
      rw [byteCount]
      omega
    rw [List.cons_append, takeBytes, if_neg hne, byteCount, Nat.add_sub_cancel_left, ih]

theorem spells_textTo {start stop : Cursor} (h : start.Reaches stop) :
    start.Spells stop (start.textTo stop) := by
  obtain ⟨n, rfl⟩ := h
  have hoffset : (skip n start).offset = start.offset + byteCount (start.rest.take n) := by
    rw [skip_eq]
    exact Position.offset_advanceBy _ _
  have htake := takeBytes_byteCount (start.rest.take n) (start.rest.drop n)
  rw [List.take_append_drop] at htake
  rw [Spells, textTo, String.toList_ofList, hoffset, Nat.add_sub_cancel_left, htake, rest_skip,
    List.take_append_drop]

end Cursor

/-- Every match of the matcher gives a value that `Good` holds of, with the text in it that the
match has gone past. -/
def Renders (text : Cursor) (Kept : RuleId → Cursor → RuleResult α → Prop) (Good : Value α → Prop)
    (m : Matcher σ α ε) : Prop :=
  ∀ (s s' : State σ α) (value : Value α), s.Sound text Kept → m s = (.matched value, s') →
    Good value ∧ s.cursor.Spells s'.cursor value.concat

variable {Good : Value α → Prop}

theorem Renders.mono {Good' : Value α → Prop} {m : Matcher σ α ε} (hm : Renders text Kept Good m)
    (hg : ∀ value, Good value → Good' value) : Renders text Kept Good' m := by
  intro s s' value hs hv
  obtain ⟨hvalue, hspells⟩ := hm s s' value hs hv
  exact ⟨hg value hvalue, hspells⟩

/-- What matches only where another matcher does, with the same value and end, renders what that
does. -/
theorem Renders.of_matched {m m' : Matcher σ α ε} (hm : Renders text Kept Good m)
    (h : ∀ (s s' : State σ α) (value : Value α), m' s = (.matched value, s') → ∃ muted t,
      m { s with muted := muted } = (.matched value, t) ∧ t.cursor = s'.cursor) :
    Renders text Kept Good m' := by
  intro s s' value hs hv
  obtain ⟨muted, t, he, hcursor⟩ := h s s' value hv
  rw [← hcursor]
  exact hm { s with muted := muted } t value ⟨hs.inText, hs.kept⟩ he

namespace Matcher

theorem literal_renders (lit : Literal) (expectation : ExpectationId)
    (hg : ∀ text, Good (.str text)) :
    Renders text Kept Good (literal (.ofLiteral lit) expectation : Matcher σ α ε) := by
  intro s s' value hs h
  unfold literal at h
  split at h
  · rename_i stop hm
    cases h
    refine ⟨hg _, ?_⟩
    have hreach := LiteralMatcher.reaches_of_matchAt hm
    unfold LiteralMatcher.matchAt at hm
    rw [Value.concat, LiteralMatcher.matchedText]
    split at hm
    · rename_i hi
      rw [if_pos hi]
      exact Cursor.spells_textTo hreach
    · rename_i hi
      rw [if_neg hi]
      exact Cursor.rest_of_skipPrefix hm
  · cases h

theorem char_renders (accepts : Char → Bool) (expectation : ExpectationId)
    (hg : ∀ text, Good (.str text)) :
    Renders text Kept Good (char accepts expectation : Matcher σ α ε) := by
  intro s s' value hs h
  unfold char at h
  split at h
  · rename_i a hp
    split at h
    · cases h
      exact ⟨hg _, Cursor.spells_next hp⟩
    · cases h
  · cases h

theorem predicate_renders (host : Host σ α ε) (negated : Bool) (code : String) (hg : Good .null) :
    Renders text Kept Good (predicate host negated code : Matcher σ α ε) := by
  intro s s' value hs h
  rw [predicate_eq] at h
  obtain ⟨ho, rfl⟩ := Prod.mk.inj h
  have hvalue : value = .null := by
    split at ho
    · split at ho <;> cases ho
      rfl
    · cases ho
  rw [hvalue]
  exact ⟨hg, s.cursor.spells_refl⟩

theorem isolate_renders {m : Matcher σ α ε} (hm : Renders text Kept Good m) :
    Renders text Kept Good (isolate m) := by
  refine hm.of_matched fun s s' value h => ?_
  rcases he : m s with ⟨o, t⟩
  rw [isolate_eq he] at h
  cases h
  exact ⟨s.muted, t, he, rfl⟩

theorem labeled_renders (label : String) {m : Matcher σ α ε} (hm : Renders text Kept Good m) :
    Renders text Kept Good (labeled label m) := by
  refine hm.of_matched fun s s' value h => ?_
  rcases he : m s with ⟨o, t⟩
  rw [labeled_eq label he] at h
  cases h
  exact ⟨s.muted, t, he, rfl⟩

theorem named_renders (expectation : ExpectationId) {m : Matcher σ α ε}
    (hm : Renders text Kept Good m) : Renders text Kept Good (named expectation m) := by
  refine hm.of_matched fun s s' value h => ?_
  rcases he : m { s with muted := true } with ⟨o, t⟩
  rw [named_eq expectation he] at h
  cases o with
  | matched inner => cases h; exact ⟨true, t, he, rfl⟩
  | failed => cases h
  | aborted e => cases h

/-- A match that is missed stands for nothing. -/
theorem optional_renders {m : Matcher σ α ε} (hr : Restores text Kept m)
    (hm : Renders text Kept Good m) (hg : Good .null) :
    Renders text Kept Good (optional m) := by
  intro s s' value hs h
  have hp := hr s hs
  rcases he : m s with ⟨o, t⟩
  rw [he] at hp
  rw [optional_eq he] at h
  cases o with
  | matched inner => cases h; exact hm s t value hs he
  | failed =>
    cases h
    have hcursor : t.cursor = s.cursor := hp.2.2.1
    refine ⟨hg, ?_⟩
    dsimp only
    rw [hcursor]
    exact s.cursor.spells_refl
  | aborted e => cases h

theorem lookahead_renders (negated : Bool) {m : Matcher σ α ε} (hg : Good .null) :
    Renders text Kept Good (lookahead negated m) := by
  intro s s' value hs h
  rcases he : m { s with muted := true } with ⟨o, t⟩
  rw [lookahead_eq negated he] at h
  obtain ⟨ho, rfl⟩ := Prod.mk.inj h
  have hvalue : value = .null := by
    cases o with
    | matched inner => cases negated <;> cases ho; rfl
    | failed => cases negated <;> cases ho; rfl
    | aborted e => cases ho
  rw [hvalue]
  exact ⟨hg, s.cursor.spells_refl⟩

/-- The text of a match is what it has gone past. -/
theorem text_renders {m : Matcher σ α ε} (hr : Restores text Kept m)
    (hg : ∀ text, Good (.str text)) :
    Renders text Kept Good (mapValue (fun text _ => .str text) (isolate m)) := by
  intro s s' value hs h
  have hp := hr s hs
  rcases he : m s with ⟨o, t⟩
  rw [he] at hp
  rw [mapValue_isolate_eq _ he] at h
  obtain ⟨ho, rfl⟩ := Prod.mk.inj h
  cases o with
  | matched inner =>
    cases ho
    exact ⟨hg _, Cursor.spells_textTo hp.2.2.1⟩
  | failed => cases ho
  | aborted e => cases ho

/-- The values of the rounds hold the text that these have gone past, the last round included. -/
theorem Rounds.renders {m : Matcher σ α ε} (hr : Restores text Kept m)
    (hm : Renders text Kept Good m) {bound : List Char} {s s' : State σ α}
    {values : List (Value α)} (hs : s.Sound text Kept) (h : Rounds m bound s (.matched values) s') :
    (∀ value ∈ values, Good value) ∧ s.cursor.Spells s'.cursor (Value.concatAll values) := by
  generalize ho : Outcome.matched values = o at h
  induction h generalizing values with
  | @failed bound s t h =>
    have hp := hr s hs
    rw [h] at hp
    have hcursor : t.cursor = s.cursor := hp.2.2.1
    cases ho
    refine ⟨List.forall_mem_nil _, ?_⟩
    dsimp only
    rw [hcursor]
    exact s.cursor.spells_refl
  | aborted h => cases ho
  | @last bound s t value h hend =>
    obtain ⟨hg, hspells⟩ := hm s t value hs h
    cases ho
    exact ⟨List.forall_mem_singleton.mpr hg, hspells.append t.cursor.spells_refl⟩
  | @again c bound s t s' value o h hmoved hrest ih =>
    obtain ⟨others, rfl, hv⟩ := Outcome.map_eq_matched.mp ho.symm
    obtain ⟨hg, hspells⟩ := hm s t value hs h
    have hp := h ▸ hr s hs
    obtain ⟨hgs, hothers⟩ := ih ⟨hp.1.inText, hp.1.kept⟩ rfl
    rw [← hv]
    exact ⟨List.forall_mem_cons.mpr ⟨hg, hgs⟩, hspells.append hothers⟩

theorem repeated_renders (needsOne : Bool) {m : Matcher σ α ε} (hr : Restores text Kept m)
    {Item : Value α → Prop} (hm : Renders text Kept Item m)
    (hg : ∀ values, (∀ value ∈ values, Item value) → (needsOne = true → values ≠ []) →
      Good (.list values)) : Renders text Kept Good (repeated needsOne m) := by
  intro s s' value hs h
  obtain ⟨o, t, hrounds⟩ := exists_rounds m s.cursor.rest s
  rw [repeated_eq needsOne hrounds] at h
  cases o with
  | matched values =>
    obtain ⟨hitems, hspells⟩ := hrounds.renders hr hm hs
    obtain ⟨hv, rfl⟩ := Prod.mk.inj h
    dsimp only at hv
    split at hv
    · cases hv
    · rename_i hempty
      cases hv
      refine ⟨hg values hitems fun hone hnil => hempty ?_, hspells⟩
      rw [hone, hnil]
      rfl
  | failed => cases h
  | aborted e => cases h

end Matcher

namespace Node

variable (host : Host σ α ε) {call : RuleId → Matcher σ α ε} {rule : String → Value α → Prop}

theorem sequence_renders (hc : ∀ id, Restores text Kept (call id)) (span : Span) {es : List Expr}
    {nodes : List Node} (h : List.Forall₂ (fun e node =>
      Renders text Kept (e.Fits rule) (node.run host call)) es nodes) :
    Renders text Kept ((Expr.sequence span es).Fits rule)
      ((Node.sequence nodes).run host call) := by
  induction h with
  | nil =>
    intro s s' value hs hv
    rw [run_sequence_nil] at hv
    cases hv
    exact ⟨.sequence span .nil, s.cursor.spells_refl⟩
  | @cons e node es nodes hfirst _ ih =>
    intro s s' value hs hv
    have hp := run_restores host hc node s hs
    rcases he : node.run host call s with ⟨o, s₁⟩
    rw [he] at hp
    rw [run_sequence_cons host call node nodes he] at hv
    cases o with
    | failed => cases hv
    | aborted e => cases hv
    | matched first =>
      obtain ⟨hfits, hspells⟩ := hfirst s s₁ first hs he
      rcases hr : (Node.sequence nodes).run host call s₁ with ⟨o', s₂⟩
      dsimp only at hv
      rw [hr] at hv
      cases o' with
      | failed => cases hv
      | aborted e => cases hv
      | matched others =>
        obtain ⟨hothers, hrest⟩ := ih s₁ s₂ others hp.1 hr
        obtain ⟨values, rfl, hvalues⟩ := Expr.fits_sequence.mp hothers
        cases hv
        exact ⟨.sequence span (.cons hfits hvalues), hspells.append hrest⟩

theorem choice_renders (hc : ∀ id, Restores text Kept (call id)) (span : Span) {es : List Expr}
    {nodes : List Node} (h : List.Forall₂ (fun e node =>
      Renders text Kept (e.Fits rule) (node.run host call)) es nodes) :
    Renders text Kept ((Expr.choice span es).Fits rule) ((Node.choice nodes).run host call) := by
  induction h with
  | nil =>
    intro s s' value hs hv
    rw [run_choice_nil] at hv
    cases hv
  | @cons e node es nodes hfirst _ ih =>
    intro s s' value hs hv
    have hp := run_restores host hc node s hs
    rcases he : node.run host call s with ⟨o, s₁⟩
    rw [he] at hp
    rw [run_choice_cons host call node nodes he] at hv
    rw [Expr.fits_choice, List.exists_mem_cons_iff]
    cases o with
    | matched first =>
      cases hv
      obtain ⟨hfits, hspells⟩ := hfirst s s₁ value hs he
      exact ⟨Or.inl hfits, hspells⟩
    | aborted e => cases hv
    | failed =>
      obtain ⟨hs₁, -, hcursor, -⟩ := hp
      obtain ⟨hfits, hspells⟩ := ih { s₁ with scope := s.scope } s' value
        ⟨hs₁.inText, hs₁.kept⟩ hv
      dsimp only at hspells
      rw [hcursor] at hspells
      exact ⟨Or.inr (Expr.fits_choice.mp hfits), hspells⟩

/-- What becomes of an expression gives values that fit the expression, if the rules called give
values that fit their names. -/
theorem run_renders {ruleIndex : String → Option RuleId}
    (hc : ∀ id, Restores text Kept (call id))
    (hcall : ∀ name id, ruleIndex name = some id → Renders text Kept (rule name) (call id))
    {e : Expr} {node : Node} (hb : e.Becomes ruleIndex node) (ha : e.ActionFree) :
    Renders text Kept (e.Fits rule) (node.run host call) := by
  have hall {es : List Expr} {nodes : List Node} (hes : ∀ e ∈ es, e.ActionFree)
      (hn : List.Forall₂ (fun e node => ∃ _ : e.Becomes ruleIndex node,
        e.ActionFree → Renders text Kept (e.Fits rule) (node.run host call)) es nodes) :
      List.Forall₂ (fun e node => Renders text Kept (e.Fits rule) (node.run host call)) es nodes :=
    ((List.forall₂_and_left es nodes).mpr ⟨hes, hn⟩).imp fun _ _ ⟨he, _, h⟩ => h he
  induction hb using Expr.Becomes.induct with
  | literal span lit expectation =>
    rw [run]
    exact Matcher.literal_renders lit _ (.literal span lit)
  | charClass span members matcher expectation =>
    rw [run]
    exact Matcher.char_renders _ _ (.charClass span members)
  | any span expectation =>
    rw [run]
    exact Matcher.char_renders _ _ (.any span)
  | ruleRef span name id hi =>
    rw [run]
    exact (hcall name id hi).mono fun _ => .ruleRef span
  | predicate span negated code =>
    rw [run]
    exact Matcher.predicate_renders host negated code (.predicate span negated code)
  | sequence span es nodes _ ih =>
    exact sequence_renders host hc span (hall (Expr.actionFree_sequence.mp ha) ih)
  | choice span es nodes _ ih =>
    exact choice_renders host hc span (hall (Expr.actionFree_choice.mp ha) ih)
  | wrapped span wrapper operator body node hw' _ ih =>
    obtain ⟨hw, hbody⟩ := Expr.actionFree_wrapped.mp ha
    have hr := run_restores host hc node
    have hi := ih hbody
    rw [run]
    cases hw' with
    | labeled label =>
      exact Matcher.labeled_renders label (hi.mono fun _ => .labeled span label)
    | named name expectation =>
      exact Matcher.named_renders expectation (hi.mono fun _ => .named span name)
    | action code => exact absurd rfl (hw code)
    | text => exact Matcher.text_renders hr (.text span body)
    | optional =>
      exact Matcher.optional_renders hr (hi.mono fun _ => .optional span) (.missing span body)
    | zeroOrMore =>
      exact Matcher.repeated_renders false hr hi fun _ hvalues _ => .zeroOrMore span hvalues
    | oneOrMore =>
      exact Matcher.repeated_renders true hr hi fun _ hvalues hne =>
        .oneOrMore span (hne rfl) hvalues
    | group => exact Matcher.isolate_renders (hi.mono fun _ => .group span)
    | followedBy => exact Matcher.lookahead_renders false (.followedBy span body)
    | notFollowedBy => exact Matcher.lookahead_renders true (.notFollowedBy span body)

end Node

namespace Grammar

variable {grammar : Grammar} {options : Options} {program : Program}

/-- What a rule may come to at `c`: the value of a match fits the rule, and is spelled by the input
that the match has gone past. -/
structure Rendered (grammar : Grammar) (id : RuleId) (c : Cursor) (result : RuleResult α) :
    Prop where
  lawful : RuleResult.Lawful (fun _ => false) id c result
  fits : ∀ value, result.value = some value → ∃ rule, grammar.rules[id]? = some rule ∧
    rule.expr.Fits grammar.RuleFits value
  spells : ∀ value, result.value = some value → c.Spells result.stop value.concat

theorem Rendered.ruleFits {name : String} {id : RuleId} {c : Cursor} {result : RuleResult α}
    (h : grammar.Rendered id c result) (hi : grammar.ruleIndex? name = some id) {value : Value α}
    (hv : result.value = some value) : grammar.RuleFits name value := by
  obtain ⟨rule, hrule, hfits⟩ := h.fits value hv
  obtain ⟨rule', hrule', -, hname⟩ := rule?_of_ruleIndex? hi
  cases hrule.symm.trans hrule'
  exact .rule hname hfits

theorem renders_of_gives {name : String} {id : RuleId} (hi : grammar.ruleIndex? name = some id)
    {m : Matcher σ α ε} (hm : Gives text grammar.Rendered id m) :
    Renders text grammar.Rendered (grammar.RuleFits name) m := by
  intro s s' value hs hv
  rcases hm s s' _ hs hv with ⟨e, ho⟩ | ⟨result, ho, hk, -, hcursor, -⟩
  · cases ho
  · cases hr : result.value with
    | none => rw [hr] at ho; cases ho
    | some found =>
      rw [hr] at ho
      cases ho
      exact ⟨hk.ruleFits hi hr, hcursor ▸ hk.spells value hr⟩

theorem Becomes.invoke_renders (h : grammar.Becomes options program) (ha : grammar.ActionFree)
    (host : Host σ α ε) (limit depth : Nat) (id : RuleId) :
    Gives text grammar.Rendered id (program.invoke host limit depth id) := by
  refine Program.invoke_gives_of_body program host limit (fun _ _ _ hk => hk.lawful.reaches)
    (fun _ c _ => ⟨⟨c.reaches_refl, fun _ => rfl, fun _ hv => absurd rfl hv⟩, nofun, nofun⟩)
    (fun call hc id found hr s t result hs hb => ?_) depth id
  have hrestores (id : RuleId) : Restores text grammar.Rendered (call id) :=
    (hc id).restores fun c result hk => hk.lawful
  obtain ⟨rule, hrule, -, he⟩ := h.exists_source hr
  have hrenders := Node.run_renders host hrestores
    (fun name id hi => renders_of_gives hi (hc id)) he (ha rule (List.mem_of_getElem? hrule))
  have hp := Node.run_restores host hrestores found.node s hs
  rw [hb] at hp
  cases result with
  | some value =>
    obtain ⟨hfits, hspells⟩ := hrenders s t value hs hb
    refine ⟨⟨⟨hp.2.2.1, nofun, nofun⟩, ?_, ?_⟩, hp.1, hp.2.1⟩
    · rintro _ ⟨⟩
      exact ⟨rule, hrule, hfits⟩
    · rintro _ ⟨⟩
      exact hspells
  | none =>
    have hcursor : t.cursor = s.cursor := hp.2.2.1
    exact ⟨⟨⟨⟨0, hcursor⟩, fun _ => hcursor, nofun⟩, nofun, nofun⟩, hp.1, hp.2.1⟩

end Grammar

namespace Program

variable {program : Program} {host : Host σ α ε}

/-- What a parse gives is what its start rule has come to. -/
theorem matched_of_parse {memory : σ} {input : String} {how : ParseOptions} {value : Value α}
    {stop : Nat} (h : (program.parse host memory input how).outcome = .ok (value, stop)) :
    ∃ start s, program.findStart how.startRule = .ok start ∧ s.cursor.offset = stop ∧
      program.runFrom host how.maxDepth start (.initial input memory) = (.matched value, s) := by
  cases hs : program.findStart how.startRule with
  | error e => rw [parse, hs] at h; cases h
  | ok start =>
    rcases hr : program.runFrom host how.maxDepth start (.initial input memory) with ⟨o, s⟩
    rw [parse_eq hs hr] at h
    cases o with
    | matched found =>
      rw [answer] at h
      split at h
      · cases h
        exact ⟨start, s, rfl, rfl, hr⟩
      · cases h
    | failed => cases h
    | aborted e => cases h

end Program

namespace Grammar

variable {grammar : Grammar} {options : Options} {program : Program}

/-- Without actions, what a parse gives holds the input up to where the match ends, byte for byte,
and has the shape of the expression of the start rule: in the grammar that the passes have left, and
in the one that they were given, if no rule of that is declared twice. -/
theorem values_hold_input {passes : Passes} (h : grammar.Compiles passes options program)
    (ha : grammar.ActionFree) (host : Host σ α ε) (memory : σ) (input : String) (how : ParseOptions)
    {value : Value α} {stop : Nat}
    (hv : (program.parse host memory input how).outcome = .ok (value, stop)) :
    (∃ rest, input = value.concat ++ rest ∧ value.concat.utf8ByteSize = stop) ∧
    ∃ left start found, grammar.Leaves passes.all options left ∧
      program.findStart how.startRule = .ok start ∧ program.rules[start]? = some found ∧
      left.RuleFits found.name value ∧
      (grammar.duplicateRule? = none → grammar.RuleFits found.name value) := by
  obtain ⟨left, hl, hb⟩ := becomes_of_compiles h
  obtain ⟨start, s, hs, rfl, hr⟩ := Program.matched_of_parse hv
  obtain ⟨name, hi⟩ := hb.startRules start (Program.mem_startRules_of_findStart hs)
  obtain ⟨found, hfound, rfl⟩ := hb.exists_rule hi
  obtain ⟨e, context, ho, -⟩ | ⟨memory', calls, hinvoke⟩ := Program.runFrom_cases hr
  · cases ho
  · obtain ⟨e, ho⟩ | ⟨result, ho, hk, -, hcursor, -⟩ := (hb.invoke_renders
      (actionFree_of_leaves hl ha) host how.maxDepth how.maxDepth start) _ s _
      (State.sound_initial input memory' calls) hinvoke
    · cases ho
    · cases hresult : result.value with
      | none => rw [hresult] at ho; cases ho
      | some matched =>
        rw [hresult] at ho
        cases ho
        have hfits := hk.ruleFits hi hresult
        have hspells := hk.spells value hresult
        rw [← hcursor] at hspells
        have hoffset := hspells.offset_eq (hcursor ▸ hk.lawful.reaches)
        refine ⟨⟨String.ofList s.cursor.rest, ?_, ?_⟩, left, start, found, hl, hs, hfound, hfits,
          fun hd => ?_⟩
        · rw [String.ext_iff, String.toList_append, String.toList_ofList]
          exact hspells
        · exact (hoffset.trans (Nat.zero_add _)).symm
        · exact (keepsShapes_of_leaves hl (nodup_of_duplicateRule? hd)).ruleFits _ _ hfits

/-- A predicate in front of items, each a letter up to case or two digits, with or without a comma
behind it: `start = &{ go } (item ","?)+` and `item = "a"i / $([0-9] [0-9])`. -/
def listedGrammar : Grammar where
  initializer := none
  rules := [
    ⟨"start", .sequence .none [.predicate .none false "go",
      .wrapped .none .oneOrMore (.wrapped .none .group (.sequence .none [.ruleRef .none "item",
        .wrapped .none .optional (.literal .none ⟨",", false⟩)]))], .none⟩,
    ⟨"item", .choice .none [.literal .none ⟨"a", true⟩,
      .wrapped .none .text (.wrapped .none .group (.sequence .none [
        .charClass .none ⟨[.range '0' '9'], false, false⟩,
        .charClass .none ⟨[.range '0' '9'], false, false⟩]))], .none⟩]
  span := .none

def listedParser : Program :=
  (listedGrammar.parser? .standard { cache := true }).get (by decide +kernel)

def countingHost : Host Nat Unit :=
  ⟨fun _ _ n => (.ok (), n), fun _ _ n => (.ok .null, n), fun _ _ n => (.ok true, n + 1)⟩

theorem values_hold_input_listed :
    listedGrammar.Compiles .standard { cache := true } listedParser ∧ listedGrammar.ActionFree ∧
    ∃ value, (listedParser.parse countingHost 0 "A,12,x" { allowRest := true }).outcome =
        .ok (value, 5) ∧
      (∃ rest, "A,12,x" = value.concat ++ rest ∧ value.concat.utf8ByteSize = 5) ∧
      listedGrammar.RuleFits "start" value := by
  have h : listedGrammar.Compiles .standard { cache := true } listedParser :=
    (Option.some_get _).symm
  have ha : listedGrammar.ActionFree := by decide
  have ho : ((listedParser.parse countingHost 0 "A,12,x" { allowRest := true }).outcome.map
      fun answer => answer.2) = .ok 5 := by decide +kernel
  have hname : ((listedParser.findStart none).toOption.bind fun start =>
      listedParser.rules[start]?.map (·.name)) = some "start" := by decide +kernel
  obtain ⟨⟨value, stop⟩, hv, rfl⟩ := map_eq_ok ho
  obtain ⟨htext, left, start, found, -, hs, hfound, -, hfits⟩ := values_hold_input h ha countingHost
    0 "A,12,x" { allowRest := true } hv
  have hstart : found.name = "start" := by
    rw [hs] at hname
    change listedParser.rules[start]?.map (·.name) = some "start" at hname
    rw [hfound] at hname
    exact Option.some.inj hname
  exact ⟨h, ha, value, hv, htext, hstart ▸ hfits (by decide)⟩

end Grammar
end Peg
