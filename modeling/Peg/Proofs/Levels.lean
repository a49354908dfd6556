import Peg.Proofs.Following

/-! Reading expressions back, level by level. A text of a tight level is read at all looser levels,
and each form of expressions is read at its own level, with the trivia inside it. -/
namespace Peg

open Notation

def Level.looser : Level → Level
  | choice | action => choice
  | sequence => action
  | labeled => sequence
  | prefixed => labeled
  | suffixed => prefixed
  | primary => suffixed

def Level.reader (nested : Reader Expr) : Level → Reader Expr
  | choice => Notation.choice nested
  | action => Notation.action nested
  | sequence => Notation.sequence nested
  | labeled => Notation.labeled nested
  | prefixed => Notation.prefixed nested
  | suffixed => Notation.suffixed nested
  | primary => Notation.primary nested

namespace Notation

variable {nested : Reader Expr} {cs ds gap rest : List Char} {P : Expr → Prop}

section Levels

theorem prefixOperator?_of_beginsPrimary {c : Char} (h : beginsPrimary c = true) :
    prefixOperator? c = none := by
  rw [← Option.not_isSome_iff_eq_none, prefixOperator?_isSome]
  rintro (rfl | rfl | rfl) <;> exact absurd h (by decide)

theorem reads_suffixed (h : Reads (primary nested) cs rest P) (hr : Behind .suffixed rest) :
    Reads (suffixed nested) cs rest P := by
  intro position
  obtain ⟨e, stop, hread, he⟩ := h position
  obtain ⟨behind, hskip⟩ := run_skipTrivia hr.clear stop
  have hnone : (ahead rest).head?.bind suffixOperator? = none := by
    cases hhead : (ahead rest).head? with
    | none => rfl
    | some c => exact hr.unsuffixed le_rfl c hhead
  have hpeek : peek ⟨behind, ahead rest⟩ = .ok ((ahead rest).head?, ⟨behind, ahead rest⟩) := rfl
  refine ⟨e, stop, ?_, he⟩
  rw [suffixed, run_bind (run_get _), run_bind hread, run_bind (run_get _), run_bind hskip,
    run_bind hpeek, hnone]
  rfl

theorem reads_prefixed (h : Reads (suffixed nested) cs rest P) {c : Char}
    (hc : (cs ++ rest).head? = some c) (hp : beginsPrimary c = true) :
    Reads (prefixed nested) cs rest P := by
  refine Reads.get_bind fun start hstart => ?_
  have hpeek : start.peek = some c := by
    rw [Cursor.peek, hstart]
    exact hc
  rw [hpeek, Option.bind_some, prefixOperator?_of_beginsPrimary hp, Option.map_none]
  exact h

theorem reads_labeled (h : Reads (prefixed nested) cs rest P)
    (hl : Reads label [] (cs ++ rest) (· = none)) : Reads (labeled nested) cs rest P := by
  refine Reads.get_bind fun start _ => ?_
  refine hl.bind_still fun found hf => ?_
  subst hf
  exact h

/-- Of what stands in a row, one is left as it is and several are put together. -/
theorem reads_row {one : Reader Expr} {more : Reader (Option Expr)}
    (node : Span → List Expr → Expr) {Q : Expr → Expr → Prop} {items : List Expr}
    (h : Reads one cs (ds ++ rest) P) (hs : Collects more Q items ds rest) :
    Reads (do
      let start ← get
      let first ← one
      let others ← collect more
      if others.isEmpty then return first
      else return node (← spanFrom start) (first :: others)) (cs ++ ds) rest fun e =>
        ∃ first others, P first ∧ List.Forall₂ Q others items ∧ (others = [] → e = first) ∧
          (others ≠ [] → ∃ span, e = node span (first :: others)) := by
  refine Reads.get_bind fun start _ => ?_
  refine h.bind fun first hfirst => ?_
  refine hs.reads.bind_end fun others hothers => ?_
  cases others with
  | nil => exact reads_pure ⟨first, [], hfirst, hothers, fun _ => rfl, fun hne => absurd rfl hne⟩
  | cons second others =>
    exact (reads_spanFrom start).bind_pure fun span _ =>
      ⟨first, second :: others, hfirst, hothers, nofun, fun _ => ⟨span, rfl⟩⟩

theorem reads_row_one {one : Reader Expr} {more : Reader (Option Expr)}
    (node : Span → List Expr → Expr) (h : Reads one cs rest P)
    (hmore : Reads more [] rest (· = none)) :
    Reads (do
      let start ← get
      let first ← one
      let others ← collect more
      if others.isEmpty then return first
      else return node (← spanFrom start) (first :: others)) cs rest P := by
  have hs : Collects more (fun _ (_ : Expr) => True) [] [] rest := .nil [] rest hmore
  have hread := reads_row node (by rwa [List.nil_append]) hs
  rw [List.append_nil] at hread
  refine hread.imp fun e ⟨first, others, hfirst, hothers, hone, _⟩ => ?_
  rw [hone (List.forall₂_nil_right_iff.mp hothers)]
  exact hfirst

/-- A sequence is made of several elements only. -/
theorem reads_sequence {Q : Expr → Expr → Prop} {items : List Expr}
    (h : Reads (labeled nested) cs (ds ++ rest) P)
    (hs : Collects (further atElement (labeled nested)) Q items ds rest) :
    Reads (sequence nested) (cs ++ ds) rest fun e => ∃ first others, P first ∧
      List.Forall₂ Q others items ∧ (others = [] → e = first) ∧
        (others ≠ [] → ∃ span, e = .sequence span (first :: others)) :=
  reads_row .sequence h hs

/-- A choice is made of several alternatives only. -/
theorem reads_choice {Q : Expr → Expr → Prop} {items : List Expr}
    (h : Reads (action nested) cs (ds ++ rest) P)
    (hs : Collects (further (eat '/') do skipTrivia; action nested) Q items ds rest) :
    Reads (choice nested) (cs ++ ds) rest fun e => ∃ first others, P first ∧
      List.Forall₂ Q others items ∧ (others = [] → e = first) ∧
        (others ≠ [] → ∃ span, e = .choice span (first :: others)) :=
  reads_row .choice h hs

theorem further_element_none (hr : Behind .sequence rest) :
    Reads (further atElement (labeled nested)) [] rest (· = none) :=
  reads_further_none hr.clear (hr.noElement le_rfl)

theorem further_alternative_none (hr : Behind .choice rest) :
    Reads (further (eat '/') do skipTrivia; action nested) [] rest (· = none) :=
  reads_further_none hr.clear (reads_eat_not (hr.noSlash le_rfl))

theorem reads_sequence_one (h : Reads (labeled nested) cs rest P) (hr : Behind .sequence rest) :
    Reads (sequence nested) cs rest P :=
  reads_row_one .sequence h (further_element_none hr)

theorem reads_choice_one (h : Reads (action nested) cs rest P) (hr : Behind .choice rest) :
    Reads (choice nested) cs rest P :=
  reads_row_one .choice h (further_alternative_none hr)

/-- Without code, an action is a sequence. -/
theorem reads_action_one (h : Reads (sequence nested) cs rest P) (hr : Behind .action rest) :
    Reads (action nested) cs rest P := by
  have hcode : Reads (peek >>= fun next => pure (decide (next = some '\x7b'))) [] (ahead rest)
      (· = false) :=
    Reads.peek_bind (reads_pure (decide_eq_false (hr.noCode le_rfl)))
  refine Reads.get_bind fun start _ => ?_
  refine h.bind_end fun e he => ?_
  refine (reads_further_none hr.clear hcode).bind_end fun found hfound => ?_
  subst hfound
  exact reads_pure he

/-- What is read at a level is read at the next looser one. -/
theorem reads_looser {level : Level} (h : Reads (level.reader nested) cs rest P)
    (hr : Behind level.looser rest)
    (hb : Level.labeled.rank ≤ level.rank → Begins level (cs ++ rest)) :
    Reads (level.looser.reader nested) cs rest P := by
  -- The looser levels look at what follows the expression, the tighter ones at how it begins.
  cases level with
  | choice => exact h
  | action => exact reads_choice_one h hr
  | sequence => exact reads_action_one h hr
  | labeled => exact reads_sequence_one h hr
  | prefixed => exact reads_labeled h ((hb (by decide)).unlabeled le_rfl)
  | suffixed =>
    obtain ⟨c, ds, hc, -, hp⟩ := (hb (by decide)).first
    exact reads_prefixed h (by rw [hc]; rfl) (hp le_rfl)
  | primary => exact reads_suffixed h hr

/-- What is read at a tight level is read at a looser one. -/
theorem Reads.loosen {level least : Level} (h : Reads (level.reader nested) cs rest P)
    (hl : least.rank ≤ level.rank) (hr : Behind least rest)
    (hb : Level.labeled.rank ≤ level.rank → Begins level (cs ++ rest)) :
    Reads (least.reader nested) cs rest P := by
  by_cases he : least = level
  · rwa [he]
  · have hloose : least.rank ≤ level.looser.rank ∧ level.looser.rank < level.rank := by
      revert hl he
      cases least <;> cases level <;> decide
    refine Reads.loosen (reads_looser h (hr.mono hloose.1) hb) hloose.1 hr fun hl' => ?_
    exact (hb (hl'.trans hloose.2.le)).mono hloose.2.le
termination_by level.rank
decreasing_by exact hloose.2

end Levels

section Forms

variable {c : Char}

theorem toList_renderLiteral (lit : Literal) :
    lit.render.toList = (quote lit.text).toList ++ if lit.ignoreCase then ['i'] else [] := by
  unfold Literal.render
  rw [String.toList_append]
  cases lit.ignoreCase <;> rfl

/-- A literal is read back unless another flag could follow it. -/
theorem reads_primary_literal (lit : Literal) (hr : rest.head? ≠ some 'i') :
    Reads (primary nested) lit.render.toList rest fun e => ∃ span, e = .literal span lit := by
  have hhead : (lit.render.toList ++ rest).head? = some '"' := by
    rw [toList_renderLiteral, toList_quote]
    rfl
  rw [toList_renderLiteral] at hhead ⊢
  refine Reads.get_bind fun start hstart => ?_
  have hpeek : start.peek = some '"' := by
    rw [Cursor.peek, hstart, hhead]
  rw [hpeek]
  change Reads (if isQuote '"' then _ else _) _ _ _
  rw [if_pos (by decide)]
  refine (reads_stringLiteral lit.text _).bind fun text htext => ?_
  subst htext
  refine (reads_mark lit.ignoreCase fun _ => hr).bind_end fun ignoreCase hcase => ?_
  subst hcase
  exact (reads_spanFrom start).bind_pure fun span _ => ⟨span, rfl⟩

theorem reads_primary_class {members : CharClass}
    (ho : ∀ part ∈ members.parts, part.isOrdered = true) (hr : rest.head? ≠ some 'i') :
    Reads (primary nested) members.render.toList rest fun e =>
      ∃ span, e = .charClass span members := by
  refine Reads.get_bind fun start hstart => ?_
  have hpeek : start.peek = some '[' := by
    rw [Cursor.peek, hstart, toList_renderClass]
    rfl
  rw [hpeek]
  change Reads (if isQuote '[' then _ else if '[' = '[' then _ else _) _ _ _
  rw [if_neg (by decide), if_pos rfl]
  refine (reads_charClass ho fun _ => hr).bind_end fun found hfound => ?_
  subst hfound
  exact (reads_spanFrom start).bind_pure fun span _ => ⟨span, rfl⟩

theorem reads_primary_any :
    Reads (primary nested) ['.'] rest fun e => ∃ span, e = .any span := by
  refine Reads.get_bind fun start hstart => ?_
  have hpeek : start.peek = some '.' := by
    rw [Cursor.peek, hstart]
    rfl
  rw [hpeek]
  change Reads (if isQuote '.' then _ else if '.' = '[' then _ else if '.' = '.' then _
    else _) _ _ _
  rw [if_neg (by decide), if_neg (by decide), if_pos rfl]
  refine (reads_advance '.').bind_end fun _ _ => ?_
  exact (reads_spanFrom start).bind_pure fun span _ => ⟨span, rfl⟩

theorem reads_primary_group {gap' : List Char} (hg : Trivia gap) (hg' : Trivia gap')
    (h : Reads nested cs (gap' ++ ')' :: rest) P) (hb : Bare (cs ++ (gap' ++ ')' :: rest))) :
    Reads (primary nested) ('(' :: (gap ++ (cs ++ (gap' ++ [')'])))) rest fun e =>
      ∃ span body, e = .wrapped span .group body ∧ P body := by
  have hclosing : Bare ([')'] ++ rest) := bare_cons (by decide) (by decide)
  refine Reads.get_bind fun start hstart => ?_
  have hpeek : start.peek = some '(' := by
    rw [Cursor.peek, hstart]
    rfl
  rw [hpeek]
  change Reads (if isQuote '(' then _ else if '(' = '[' then _ else if '(' = '.' then _
    else if '(' = '(' then _ else _) _ _ _
  rw [if_neg (by decide), if_neg (by decide), if_neg (by decide), if_pos rfl]
  refine (reads_advance '(').bind fun _ _ => ?_
  refine (reads_trivia hg (by simpa using hb)).bind fun _ _ => ?_
  refine Reads.bind (by simpa using h) fun body hbody => ?_
  refine (reads_trivia hg' hclosing).bind fun _ _ => ?_
  refine (reads_eat ')').bind_end fun found hfound => ?_
  subst hfound
  exact (reads_spanFrom start).bind_pure fun span _ => ⟨span, body, rfl, hbody⟩

theorem reads_primary_ref {name : String} (hname : isName name = true)
    (hr : ∀ a, rest.head? = some a → isNamePart a = false) :
    Reads (primary nested) name.toList rest fun e => ∃ span, e = .ruleRef span name := by
  obtain ⟨a, as, ha, hstart'⟩ := exists_cons_of_isName hname
  have hne (d : Char) (hd : isNameStart d = false) : ¬ a = d := ne_of_isNameStart hstart' hd
  refine Reads.get_bind fun start hstart => ?_
  have hpeek : start.peek = some a := by
    rw [Cursor.peek, hstart, ha]
    rfl
  rw [hpeek]
  change Reads (if isQuote a then _ else if a = '[' then _ else if a = '.' then _
    else if a = '(' then _ else _) _ _ _
  rw [if_neg (by rw [isQuote_of_isNameStart hstart']; exact Bool.false_ne_true),
    if_neg (hne '[' (by decide)), if_neg (hne '.' (by decide)),
    if_neg (hne '(' (by decide))]
  refine (reads_identifier hname hr).bind_end fun found hfound => ?_
  subst hfound
  refine Reads.get_bind fun stop _ => ?_
  refine (reads_checkReserved hname start stop rest).bind_still fun _ _ => ?_
  exact (reads_spanFrom start).bind_pure fun span _ => ⟨span, rfl⟩

theorem reads_suffix {wrapper : Wrapper} (hg : Trivia gap) (hc : suffixOperator? c = some wrapper)
    (h : Reads (primary nested) cs (gap ++ c :: rest) P) :
    Reads (suffixed nested) (cs ++ (gap ++ [c])) rest fun e =>
      ∃ span body, e = .wrapped span wrapper body ∧ P body := by
  have hbare : Bare (c :: rest) := by
    have hsome : (suffixOperator? c).isSome = true := by rw [hc]; rfl
    rcases suffixOperator?_isSome.mp hsome with rfl | rfl | rfl <;>
      exact bare_cons (by decide) (by decide)
  refine Reads.get_bind fun start _ => ?_
  refine Reads.bind (by simpa using h) fun body hbody => Reads.get_bind fun behind _ => ?_
  refine (reads_trivia hg hbare).bind fun _ _ => Reads.peek_bind ?_
  have hnext : ([c] ++ rest).head?.bind suffixOperator? = some wrapper := hc
  rw [hnext]
  refine (reads_advance c).bind_end fun _ _ => ?_
  exact (reads_spanFrom start).bind_pure fun span _ => ⟨span, body, rfl, hbody⟩

/-- What the prefixed reader does behind an operator. -/
theorem reads_operator {wrapper : Wrapper} (hg : Trivia gap) (hc : prefixOperator? c = some wrapper)
    (hb : Bare (cs ++ rest))
    (h : ∀ start, Reads (do
      let following ← peek
      if following = some '\x7b' && c ≠ '$' then
        let code ← codeBlock
        return .predicate (← spanFrom start) (c == '!') code
      else if following.any beginsPrimary then
        let body ← suffixed nested
        return .wrapped (← spanFrom start) wrapper body
      else failHere (.expectedOperand c)) cs rest P) :
    Reads (prefixed nested) (c :: (gap ++ cs)) rest P := by
  refine Reads.get_bind fun start hstart => ?_
  have hpeek : start.peek = some c := by
    rw [Cursor.peek, hstart]
    rfl
  rw [hpeek, Option.bind_some, hc]
  refine Reads.bind (reads_advance c) fun _ _ => ?_
  exact (reads_trivia hg hb).bind fun _ _ => h start

theorem reads_prefix {wrapper : Wrapper} (hg : Trivia gap) (hc : prefixOperator? c = some wrapper)
    (h : Reads (suffixed nested) cs rest P) {a : Char} (ha : (cs ++ rest).head? = some a)
    (hp : beginsPrimary a = true) :
    Reads (prefixed nested) (c :: (gap ++ cs)) rest fun e =>
      ∃ span body, e = .wrapped span wrapper body ∧ P body := by
  have hbegins : beginsExpr a = true := by rw [beginsExpr, hp, Bool.true_or]
  obtain ⟨ds, hds⟩ := List.head?_eq_some_iff.mp ha
  refine reads_operator hg hc (by rw [hds]; exact bare_of_beginsExpr hbegins) fun start => ?_
  refine Reads.peek_bind ?_
  rw [ha, Option.any_some, if_neg, if_pos hp]
  · refine h.bind_end fun body hbody => ?_
    exact (reads_spanFrom start).bind_pure fun span _ => ⟨span, body, rfl, hbody⟩
  · simp only [Bool.and_eq_true, decide_eq_true_eq, Option.some.injEq]
    exact fun hcode => ne_of_beginsExpr hbegins (by decide) hcode.1

theorem toList_renderCode (code : String) : ∃ ds, (renderCode code).toList = '\x7b' :: ds := by
  unfold renderCode
  split_ifs
  · exact ⟨_, rfl⟩
  · exact ⟨_, by simp; rfl⟩

theorem reads_predicate (negated : Bool) {code : String} (hg : Trivia gap)
    (hcode : isCode code = true) :
    Reads (prefixed nested) ((if negated then '!' else '&') :: (gap ++ (renderCode code).toList))
      rest fun e => ∃ span, e = .predicate span negated code := by
  have hwrapper : ∃ wrapper, prefixOperator? (if negated then '!' else '&') = some wrapper := by
    cases negated <;> exact ⟨_, rfl⟩
  obtain ⟨wrapper, hc⟩ := hwrapper
  obtain ⟨ds, hds⟩ := toList_renderCode code
  have hbare : Bare ((renderCode code).toList ++ rest) := by
    rw [hds]
    exact bare_cons (by decide) (by decide)
  have hhead : ((renderCode code).toList ++ rest).head? = some '\x7b' := by
    rw [hds]
    rfl
  refine reads_operator hg hc hbare fun start => Reads.peek_bind ?_
  rw [hhead, if_pos (by cases negated <;> decide)]
  refine (reads_codeBlock hcode rest).bind_end fun found hfound => ?_
  subst hfound
  exact (reads_spanFrom start).bind_pure fun span _ => ⟨span, by cases negated <;> rfl⟩

theorem reads_labeled_some {name : String} {gap' : List Char} (hname : isName name = true)
    (hg : Slack gap) (hg' : Trivia gap') (h : Reads (prefixed nested) cs rest P)
    (hb : Bare (cs ++ rest)) :
    Reads (labeled nested) (name.toList ++ (gap ++ ':' :: (gap' ++ cs))) rest fun e =>
      ∃ span body, e = .wrapped span (.labeled name) body ∧ P body := by
  have htext : name.toList ++ (gap ++ ':' :: (gap' ++ cs)) =
      (name.toList ++ (gap ++ [':'])) ++ (gap' ++ cs) := by simp
  rw [htext]
  refine Reads.get_bind fun start _ => ?_
  refine (reads_label hname hg).bind fun found hfound => ?_
  subst hfound
  refine (reads_trivia hg' hb).bind fun _ _ => ?_
  refine h.bind_end fun body hbody => ?_
  exact (reads_spanFrom start).bind_pure fun span _ => ⟨span, body, rfl, hbody⟩

theorem reads_action_code {code : String} (hg : Trivia gap) (hcode : isCode code = true)
    (h : Reads (sequence nested) cs (gap ++ ((renderCode code).toList ++ rest)) P) :
    Reads (action nested) (cs ++ (gap ++ (renderCode code).toList)) rest fun e =>
      ∃ span body, e = .wrapped span (.action code) body ∧ P body := by
  obtain ⟨ds, hds⟩ := toList_renderCode code
  have hbare : Bare ([] ++ ((renderCode code).toList ++ rest)) := by
    rw [List.nil_append, hds]
    exact bare_cons (by decide) (by decide)
  have hready : Reads (peek >>= fun next => pure (decide (next = some '\x7b'))) []
      ((renderCode code).toList ++ rest) (· = true) := by
    rw [hds]
    exact Reads.peek_bind (reads_pure rfl)
  refine Reads.get_bind fun start _ => ?_
  refine Reads.bind (by rwa [List.append_assoc]) fun body hbody => ?_
  have hread := reads_further_some hg hbare hready (reads_codeBlock hcode rest)
  refine hread.bind_end fun found ⟨a, hfound, ha⟩ => ?_
  subst hfound ha
  exact (reads_spanFrom start).bind_pure fun span _ => ⟨span, body, rfl, hbody⟩

end Forms

end Notation

end Peg
