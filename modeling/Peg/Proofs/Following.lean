import Mathlib.Data.List.TakeWhile
import Peg.Notation.Reader
import Peg.Proofs.Trivia

/-! What may follow an expression in a text, and what an element of a sequence begins with. Readers
look ahead in three ways: behind a name for the colon of a label or the rest of a declaration,
behind a primary for a suffix, and behind an element for another one. -/
namespace Peg.Notation

variable {α : Type}

section Characters

theorem mem_of_inRanges {n : Nat} {ranges : List (Nat × Nat)}
    (h : Unicode.inRanges n ranges = true) :
    n ∈ ranges.flatMap fun range => List.range' range.1 (range.2 + 1 - range.1) := by
  induction ranges with
  | nil => cases h
  | cons range ranges ih =>
    simp only [Unicode.inRanges, Bool.and_eq_true, Bool.or_eq_true, decide_eq_true_eq] at h
    rw [List.flatMap_cons, List.mem_append]
    rcases h with ⟨hle, hlast | hrest⟩
    · exact Or.inl (List.mem_range'_1.mpr ⟨hle, by omega⟩)
    · exact Or.inr (ih hrest)

/-- No name has a blank in it. -/
theorem isSpace_of_isNamePart {c : Char} (h : isNamePart c = true) : isSpace c = false := by
  have hblank : ∀ n ∈ Unicode.blankRanges.flatMap fun range =>
      List.range' range.1 (range.2 + 1 - range.1), isNamePart (Char.ofNat n) = false := by
    decide +kernel
  rw [← Bool.not_eq_true]
  intro hs
  unfold isSpace at hs
  rw [Bool.or_eq_true, beq_iff_eq] at hs
  rcases hs with hs | rfl
  · have hn := hblank c.toNat (mem_of_inRanges hs)
    rw [Char.ofNat_toNat, h] at hn
    cases hn
  · exact absurd h (by decide +kernel)

theorem isSpace_of_isNameStart {c : Char} (h : isNameStart c = true) : isSpace c = false :=
  isSpace_of_isNamePart (isNamePart_of_isNameStart h)

/-- No name goes on in a gap. -/
theorem Gap.ends {gap : List Char} (h : Gap gap) (rest : List Char) :
    ∀ a, (gap ++ rest).head? = some a → isNamePart a = false := by
  obtain ⟨-, b, bs, rfl, hb⟩ := h
  intro a ha
  cases ha
  rw [← Bool.not_eq_true]
  intro hpart
  rw [isSpace_of_isNamePart hpart] at hb
  cases hb

theorem Slack.ends {gap ds : List Char} {c : Char} (h : Slack gap) (hc : isNamePart c = false) :
    ∀ a, (gap ++ c :: ds).head? = some a → isNamePart a = false := by
  rcases h with rfl | h
  · intro a ha
    cases ha
    exact hc
  · exact h.ends _

/-- A name begins with none of the characters that have a meaning of their own. -/
theorem ne_of_isNameStart {c d : Char} (h : isNameStart c = true) (hd : isNameStart d = false) :
    c ≠ d := by
  rintro rfl
  rw [h] at hd
  cases hd

def beginsExpr (c : Char) : Bool := beginsPrimary c || (prefixOperator? c).isSome

theorem prefixOperator?_isSome {c : Char} :
    (prefixOperator? c).isSome = true ↔ c = '$' ∨ c = '&' ∨ c = '!' := by
  unfold prefixOperator?
  split <;> simp_all

theorem suffixOperator?_isSome {c : Char} :
    (suffixOperator? c).isSome = true ↔ c = '?' ∨ c = '*' ∨ c = '+' := by
  unfold suffixOperator?
  split <;> simp_all

theorem isQuote_of_isNameStart {c : Char} (h : isNameStart c = true) : isQuote c = false := by
  rw [← Bool.not_eq_true]
  intro hq
  unfold isQuote at hq
  rw [Bool.or_eq_true, beq_iff_eq, beq_iff_eq] at hq
  rcases hq with rfl | rfl <;> exact absurd h (by decide)

/-- An expression begins with a character of its own or with a name. -/
theorem beginsExpr_iff {c : Char} : beginsExpr c = true ↔
    c ∈ ['"', '\'', '[', '.', '(', '$', '&', '!'] ∨ isNameStart c = true := by
  unfold beginsExpr beginsPrimary
  simp only [Bool.or_eq_true, beq_iff_eq, prefixOperator?_isSome, List.mem_cons, List.not_mem_nil,
    or_false]
  tauto

/-- The characters that follow expressions begin none. -/
theorem ne_of_beginsExpr {c d : Char} (h : beginsExpr c = true) (hd : beginsExpr d = false) :
    c ≠ d := by
  rintro rfl
  rw [h] at hd
  cases hd

theorem isSpace_of_beginsExpr {c : Char} (h : beginsExpr c = true) : isSpace c = false := by
  rcases beginsExpr_iff.mp h with hc | hn
  · simp only [List.mem_cons, List.not_mem_nil, or_false] at hc
    rcases hc with rfl | rfl | rfl | rfl | rfl | rfl | rfl | rfl <;> decide
  · exact isSpace_of_isNameStart hn

end Characters

theorem run_get (c : Cursor) : (get : Reader Cursor) c = .ok (c, c) := rfl

theorem run_lookingAt {r : Reader Bool} {c s : Cursor} {found : Bool} (h : r c = .ok (found, s)) :
    lookingAt r c = .ok (found, c) := by
  unfold lookingAt
  rw [h]

section Further

variable {ready : Reader Bool} {item : Reader α} {P : α → Prop}

/-- Nothing is read, trivia included, where no further item is ready. -/
theorem reads_further_none {rest : List Char} (hb : Clear rest)
    (hr : Reads ready [] (ahead rest) (· = false)) :
    Reads (further ready item) [] rest (· = none) := by
  intro position
  obtain ⟨middle, hskip⟩ := run_skipTrivia hb position
  obtain ⟨_, stop, hready, rfl⟩ := hr middle
  rw [List.nil_append] at hready
  have hrun : further ready item ⟨position, rest⟩ = (skipTrivia >>= fun _ => ready >>= fun found =>
      if found then item >>= fun a => pure (some a)
      else set (⟨position, rest⟩ : Cursor) >>= fun _ => pure none) ⟨position, rest⟩ := rfl
  refine ⟨none, position, ?_, rfl⟩
  rw [List.nil_append, hrun, run_bind hskip, run_bind hready]
  rfl

/-- A further item is read, with the trivia before it and its mark. -/
theorem reads_further_some {gap mark cs rest : List Char} (hg : Trivia gap)
    (hb : Bare (mark ++ (cs ++ rest))) (hr : Reads ready mark (cs ++ rest) (· = true))
    (hi : Reads item cs rest P) :
    Reads (further ready item) (gap ++ (mark ++ cs)) rest
      fun found => ∃ a, found = some a ∧ P a := by
  refine Reads.get_bind fun behind _ => ?_
  refine (reads_trivia hg (by rwa [List.append_assoc])).bind fun _ _ => ?_
  refine hr.bind fun found hfound => ?_
  subst hfound
  exact hi.bind_pure fun a ha => ⟨a, rfl, ha⟩

end Further

section Declarations

/-- What a name has to be followed by to begin the declaration of a rule. -/
def declaration : Reader Bool := do
  skipTrivia
  if (← peek).any isQuote then
    let _ ← stringLiteral
    skipTrivia
  return (← peek) = some '='

section

variable {c c₁ c₂ c₃ : Cursor}

theorem run_declaration (h : skipTrivia c = .ok ((), c₁)) :
    declaration c = (if c₁.peek.any isQuote then stringLiteral >>= fun _ => skipTrivia >>= fun _ =>
      peek >>= fun next => pure (decide (next = some '='))
      else peek >>= fun next => pure (decide (next = some '=')) : Reader Bool) c₁ := by
  unfold declaration
  rw [run_bind h]
  rfl

theorem run_declaration_plain (h : skipTrivia c = .ok ((), c₁))
    (hq : c₁.peek.any isQuote = false) : declaration c = .ok (decide (c₁.peek = some '='), c₁) := by
  rw [run_declaration h, hq]
  rfl

theorem run_declaration_display {text : String} (h : skipTrivia c = .ok ((), c₁))
    (hq : c₁.peek.any isQuote = true) (hl : stringLiteral c₁ = .ok (text, c₂))
    (h' : skipTrivia c₂ = .ok ((), c₃)) :
    declaration c = .ok (decide (c₃.peek = some '='), c₃) := by
  rw [run_declaration h, if_pos hq, run_bind hl, run_bind h']
  rfl

end

/-- Whether a name in front of the text begins the declaration of a rule. -/
def Declares (declared : Bool) (rest : List Char) : Prop :=
  ∀ position, ∃ stop, declaration ⟨position, rest⟩ = .ok (declared, stop)

theorem declares_of_ahead {rest : List Char} (hb : Clear rest)
    (hq : (ahead rest).head?.any isQuote = false) :
    Declares (decide ((ahead rest).head? = some '=')) rest := by
  intro position
  obtain ⟨middle, hskip⟩ := run_skipTrivia hb position
  exact ⟨⟨middle, ahead rest⟩, run_declaration_plain hskip hq⟩

/-- Behind a literal it shows whether the name is declared. -/
theorem declares_literal (text : String) {gap rest : List Char} (hg : Trivia gap)
    (hb : Clear rest) :
    Declares (decide ((ahead rest).head? = some '=')) (gap ++ ((quote text).toList ++ rest)) := by
  obtain ⟨inner, hquote⟩ : ∃ inner, (quote text).toList ++ rest = '"' :: inner :=
    ⟨_, by rw [toList_quote, List.cons_append]⟩
  have hbare : Bare ('"' :: inner) := bare_cons (by decide) (by decide)
  have hahead : ahead (gap ++ '"' :: inner) = '"' :: inner := ahead_append hg hbare
  intro position
  obtain ⟨start, hskip⟩ := run_skipTrivia (clear_append hg hbare) position
  obtain ⟨_, stop, hread, -⟩ := reads_stringLiteral text rest start
  obtain ⟨behind, hskip'⟩ := run_skipTrivia hb stop
  rw [hahead, ← hquote] at hskip
  have hpeek : (⟨start, (quote text).toList ++ rest⟩ : Cursor).peek.any isQuote = true := by
    rw [hquote]
    rfl
  exact ⟨⟨behind, ahead rest⟩, run_declaration_display hskip hpeek hread hskip'⟩

/-- Characters other than quotes and `=` follow a name that is not declared. -/
theorem undeclared_cons {gap ds : List Char} {c : Char} (hg : Trivia gap) (hb : Bare (c :: ds))
    (hq : isQuote c = false) (hc : c ≠ '=') : Declares false (gap ++ c :: ds) := by
  have hahead : ahead (gap ++ c :: ds) = c :: ds := ahead_append hg hb
  have h : Declares (decide ((ahead (gap ++ c :: ds)).head? = some '=')) (gap ++ c :: ds) := by
    refine declares_of_ahead (clear_append hg hb) ?_
    rw [hahead]
    exact hq
  have hne : (c :: ds).head? ≠ some '=' := fun he => hc (Option.some.inj he)
  rwa [hahead, decide_eq_false hne] at h

end Declarations

/-- What may follow an expression that is read at the level. -/
structure Behind (level : Level) (rest : List Char) : Prop where
  ends : ∀ c, rest.head? = some c → isNamePart c = false
  clear : Clear rest
  unlabeled : (ahead rest).head? ≠ some ':'
  unassigned : (ahead rest).head? ≠ some '='
  undeclared : Declares false rest
  unsuffixed : level.rank ≤ Level.suffixed.rank →
    ∀ c, (ahead rest).head? = some c → suffixOperator? c = none
  noElement : level.rank ≤ Level.sequence.rank → Reads atElement [] (ahead rest) (· = false)
  noCode : level.rank ≤ Level.action.rank → (ahead rest).head? ≠ some '\x7b'
  noSlash : level.rank ≤ Level.choice.rank → (ahead rest).head? ≠ some '/'

/-- Less may follow what is read at a looser level. -/
theorem Behind.mono {level level' : Level} {rest : List Char} (h : Behind level rest)
    (hl : level.rank ≤ level'.rank) : Behind level' rest where
  ends := h.ends
  clear := h.clear
  unlabeled := h.unlabeled
  unassigned := h.unassigned
  undeclared := h.undeclared
  unsuffixed hl' := h.unsuffixed (hl.trans hl')
  noElement hl' := h.noElement (hl.trans hl')
  noCode hl' := h.noCode (hl.trans hl')
  noSlash hl' := h.noSlash (hl.trans hl')

/-- No flag of a literal or a class follows. -/
theorem Behind.flag {level : Level} {rest : List Char} (h : Behind level rest) :
    rest.head? ≠ some 'i' := by
  intro hi
  have hpart := h.ends 'i' hi
  exact absurd hpart (by decide)

/-- What an element of a sequence begins with, if it is of the level. -/
structure Begins (level : Level) (text : List Char) : Prop where
  first : ∃ c ds, text = c :: ds ∧ beginsExpr c = true ∧
    (Level.suffixed.rank ≤ level.rank → beginsPrimary c = true)
  element : Reads atElement [] text (· = true)
  unlabeled : Level.prefixed.rank ≤ level.rank → Reads label [] text (· = none)
  undeclared : ∀ gap, Trivia gap → Declares false (gap ++ text)

/-- An element of a tight level begins as one of a looser level may. -/
theorem Begins.mono {level level' : Level} {text : List Char} (h : Begins level text)
    (hl : level'.rank ≤ level.rank) : Begins level' text where
  first :=
    let ⟨c, ds, ht, hc, hp⟩ := h.first
    ⟨c, ds, ht, hc, fun hl' => hp (hl'.trans hl)⟩
  element := h.element
  unlabeled hl' := h.unlabeled (hl'.trans hl)
  undeclared := h.undeclared

section Symbols

variable {level : Level} {gap ds : List Char} {c : Char}

theorem reads_atElement_symbol (hn : isNameStart c = false) :
    Reads atElement [] (c :: ds) (· = beginsExpr c) := by
  refine Reads.peek_bind ?_
  change Reads (if isNameStart c then _ else _) _ _ _
  rw [hn]
  exact reads_pure rfl

/-- A character that begins no expression ends one. -/
theorem behind_symbol (hg : Slack gap) (hpart : isNamePart c = false) (hb : Bare (c :: ds))
    (hc : beginsExpr c = false) (hcolon : c ≠ ':') (hassign : c ≠ '=')
    (hsuffix : level.rank ≤ Level.suffixed.rank → suffixOperator? c = none)
    (hcode : level.rank ≤ Level.action.rank → c ≠ '\x7b')
    (hslash : level.rank ≤ Level.choice.rank → c ≠ '/') : Behind level (gap ++ c :: ds) := by
  have hahead : ahead (gap ++ c :: ds) = c :: ds := ahead_append hg.trivia hb
  have hhead (d : Char) (h : c ≠ d) : (ahead (gap ++ c :: ds)).head? ≠ some d := by
    rw [hahead]
    exact fun hd => h (Option.some.inj hd)
  have hname : isNameStart c = false := by
    rw [← Bool.not_eq_true]
    intro hn
    rw [beginsExpr_iff.mpr (Or.inr hn)] at hc
    cases hc
  have hquote : isQuote c = false := by
    rw [← Bool.not_eq_true]
    intro hq
    unfold isQuote at hq
    rw [Bool.or_eq_true, beq_iff_eq, beq_iff_eq] at hq
    rcases hq with rfl | rfl <;> cases hc
  exact {
    ends := hg.ends hpart
    clear := clear_append hg.trivia hb
    unlabeled := hhead ':' hcolon
    unassigned := hhead '=' hassign
    undeclared := undeclared_cons hg.trivia hb hquote hassign
    unsuffixed := fun hl a ha => by
      rw [hahead] at ha
      cases ha
      exact hsuffix hl
    noElement := fun _ => by
      rw [hahead, ← hc]
      exact reads_atElement_symbol hname
    noCode := fun hl => hhead '\x7b' (hcode hl)
    noSlash := fun hl => hhead '/' (hslash hl) }

/-- A group is closed behind an expression of any level. -/
theorem behind_closing (hg : Slack gap) : Behind level (gap ++ ')' :: ds) :=
  behind_symbol hg (by decide) (bare_cons (by decide) (by decide)) (by decide) (by decide)
    (by decide) (fun _ => by decide) (fun _ => by decide) (fun _ => by decide)

/-- A suffix operator stands behind a primary. -/
theorem behind_suffix (hg : Slack gap) (h : (suffixOperator? c).isSome = true) :
    Behind .primary (gap ++ c :: ds) := by
  rcases suffixOperator?_isSome.mp h with rfl | rfl | rfl <;>
    exact behind_symbol hg (by decide) (bare_cons (by decide) (by decide)) (by decide) (by decide)
      (by decide) (fun hl => absurd hl (by decide)) (fun _ => by decide) (fun _ => by decide)

/-- Another alternative stands behind an action. -/
theorem behind_slash (hg : Slack gap) (hb : Bare ('/' :: ds)) :
    Behind .action (gap ++ '/' :: ds) :=
  behind_symbol hg (by decide) hb (by decide) (by decide) (by decide) (fun _ => by decide)
    (fun _ => by decide) (fun hl => absurd hl (by decide))

/-- Code stands behind a sequence. -/
theorem behind_code (hg : Slack gap) : Behind .sequence (gap ++ '\x7b' :: ds) :=
  behind_symbol hg (by decide) (bare_cons (by decide) (by decide)) (by decide) (by decide)
    (by decide) (fun _ => by decide) (fun hl => absurd hl (by decide)) (fun _ => by decide)

/-- A semicolon stands behind the expression of a rule. -/
theorem behind_semicolon (hg : Slack gap) : Behind level (gap ++ ';' :: ds) :=
  behind_symbol hg (by decide) (bare_cons (by decide) (by decide)) (by decide) (by decide)
    (by decide) (fun _ => by decide) (fun _ => by decide) (fun _ => by decide)

end Symbols

section Elements

variable {level : Level} {text : List Char}

theorem bare_of_beginsExpr {c : Char} {ds : List Char} (h : beginsExpr c = true) : Bare (c :: ds) :=
  bare_cons (isSpace_of_beginsExpr h) (ne_of_beginsExpr h (by decide))

theorem Begins.bare (h : Begins level text) : Bare text := by
  obtain ⟨c, ds, rfl, hc, -⟩ := h.first
  exact bare_of_beginsExpr hc

/-- An element of a sequence stands behind another one. -/
theorem behind_element {gap : List Char} (hg : Gap gap) (h : Begins level text) :
    Behind .labeled (gap ++ text) := by
  obtain ⟨c, ds, rfl, hc, -⟩ := h.first
  have hbare : Bare (c :: ds) := bare_of_beginsExpr hc
  have hahead : ahead (gap ++ c :: ds) = c :: ds := ahead_append hg.trivia hbare
  have hne (d : Char) (hd : beginsExpr d = false) : (ahead (gap ++ c :: ds)).head? ≠ some d := by
    rw [hahead]
    exact fun he => ne_of_beginsExpr hc hd (Option.some.inj he)
  exact {
    ends := hg.ends _
    clear := clear_append hg.trivia hbare
    unlabeled := hne ':' (by decide)
    unassigned := hne '=' (by decide)
    undeclared := h.undeclared gap hg.trivia
    unsuffixed := fun _ a ha => by
      rw [hahead] at ha
      cases ha
      rw [← Option.not_isSome_iff_eq_none, suffixOperator?_isSome]
      rintro (rfl | rfl | rfl) <;> exact absurd hc (by decide)
    noElement := fun hl => absurd hl (by decide)
    noCode := fun hl => absurd hl (by decide)
    noSlash := fun hl => absurd hl (by decide) }

/-- No label begins with a character that begins no name. -/
theorem reads_label_symbol {c : Char} {ds : List Char} (hn : isNameStart c = false) :
    Reads label [] (c :: ds) (· = none) := by
  intro position
  have hnone : identifier ⟨position, c :: ds⟩ = .ok (none, ⟨position, c :: ds⟩) :=
    if_neg fun h => Bool.false_ne_true (hn.symm.trans h)
  refine ⟨none, position, ?_, rfl⟩
  rw [List.nil_append, label, run_bind (run_get _), run_bind hnone]
  rfl

/-- A character other than a quote and those of names begins an element. -/
theorem begins_symbol {c : Char} {ds : List Char} (hc : beginsExpr c = true)
    (hn : isNameStart c = false) (hq : isQuote c = false)
    (hp : Level.suffixed.rank ≤ level.rank → beginsPrimary c = true) : Begins level (c :: ds) where
  first := ⟨c, ds, rfl, hc, hp⟩
  element := by
    rw [← hc]
    exact reads_atElement_symbol hn
  unlabeled _ := reads_label_symbol hn
  undeclared gap hg :=
    undeclared_cons hg (bare_of_beginsExpr hc) hq (ne_of_beginsExpr hc (by decide))

/-- A literal begins an element. -/
theorem begins_literal (literal : String) {rest : List Char} (hb : Clear rest)
    (ha : (ahead rest).head? ≠ some '=') : Begins level ((quote literal).toList ++ rest) := by
  have hhead : ∃ ds, (quote literal).toList ++ rest = '"' :: ds :=
    ⟨_, by rw [toList_quote, List.cons_append]⟩
  obtain ⟨ds, hds⟩ := hhead
  have hn : isNameStart '"' = false := by decide
  exact {
    first := ⟨'"', ds, hds, by decide, fun _ => by decide⟩
    element := by
      rw [hds]
      exact reads_atElement_symbol hn
    unlabeled := fun _ => by
      rw [hds]
      exact reads_label_symbol hn
    undeclared := fun gap hg => by
      have h := declares_literal literal hg hb
      rwa [decide_eq_false ha] at h }

section Names

variable {name : String} {rest : List Char}

/-- Behind a name it is looked whether it is declared. -/
theorem reads_atRule (hname : isName name = true)
    (he : ∀ c, rest.head? = some c → isNamePart c = false) {declared : Bool}
    (hd : Declares declared rest) :
    Reads atRule [] (name.toList ++ rest) (· = declared) := by
  intro position
  obtain ⟨_, middle, hread, rfl⟩ := reads_identifier hname he position
  obtain ⟨stop, hdeclaration⟩ := hd middle
  refine ⟨declared, position, run_lookingAt (s := stop) ?_, rfl⟩
  rw [List.nil_append, run_bind hread]
  exact hdeclaration

theorem reads_atElement_name (hname : isName name = true)
    (he : ∀ c, rest.head? = some c → isNamePart c = false) {declared : Bool}
    (hd : Declares declared rest) :
    Reads atElement [] (name.toList ++ rest) (· = !declared) := by
  have hrule := reads_atRule hname he hd
  obtain ⟨c, cs, hc, hstart⟩ := exists_cons_of_isName hname
  refine Reads.peek_bind ?_
  rw [hc] at hrule ⊢
  change Reads (if isNameStart c then _ else _) _ _ _
  rw [if_pos hstart]
  exact hrule.bind_pure fun _ ha => congrArg _ ha

/-- A name is no label unless a colon follows it. -/
theorem reads_label_name (hname : isName name = true)
    (he : ∀ c, rest.head? = some c → isNamePart c = false) (hb : Clear rest)
    (hc : (ahead rest).head? ≠ some ':') : Reads label [] (name.toList ++ rest) (· = none) := by
  intro position
  obtain ⟨_, middle, hread, rfl⟩ := reads_identifier hname he position
  obtain ⟨behind, hskip⟩ := run_skipTrivia hb middle
  have heat : eat ':' ⟨behind, ahead rest⟩ = .ok (false, ⟨behind, ahead rest⟩) := if_neg hc
  refine ⟨none, position, ?_, rfl⟩
  rw [List.nil_append, label, run_bind (run_get _), run_bind hread]
  change (get >>= fun stop => skipTrivia >>= fun _ => eat ':' >>= fun found =>
    if found then checkReserved name ⟨position, name.toList ++ rest⟩ stop >>= fun _ =>
      pure (some name)
    else set (⟨position, name.toList ++ rest⟩ : Cursor) >>= fun _ => pure none : Reader _) _ = _
  rw [run_bind (run_get _), run_bind hskip, run_bind heat]
  rfl

/-- A name with a colon is a label. -/
theorem reads_label (hname : isName name = true) {gap : List Char} (hg : Slack gap) :
    Reads label (name.toList ++ (gap ++ [':'])) rest (· = some name) := by
  have hcolon : ∀ c, (gap ++ [':'] ++ rest).head? = some c → isNamePart c = false := by
    rw [List.append_assoc]
    exact hg.ends (by decide)
  refine Reads.get_bind fun start _ => ?_
  refine (reads_identifier hname hcolon).bind fun found hf => ?_
  subst hf
  refine Reads.get_bind fun stop _ => ?_
  refine (reads_trivia hg.trivia (bare_cons (by decide) (by decide))).bind fun _ _ => ?_
  refine (reads_eat ':').bind_end fun found hf => ?_
  subst hf
  exact (reads_checkReserved hname start stop rest).bind_pure fun _ _ => rfl

/-- A name that is not declared begins an element. -/
theorem begins_word (hname : isName name = true)
    (he : ∀ c, rest.head? = some c → isNamePart c = false) (hd : Declares false rest)
    (hl : Level.prefixed.rank ≤ level.rank → Reads label [] (name.toList ++ rest) (· = none)) :
    Begins level (name.toList ++ rest) := by
  obtain ⟨c, cs, hc, hstart⟩ := exists_cons_of_isName hname
  have hbegins : beginsExpr c = true := beginsExpr_iff.mpr (Or.inr hstart)
  have hprimary : beginsPrimary c = true := by
    unfold beginsPrimary
    rw [hstart, Bool.or_true]
  have htext : name.toList ++ rest = c :: (cs ++ rest) := by rw [hc, List.cons_append]
  exact {
    first := ⟨c, cs ++ rest, htext, hbegins, fun _ => hprimary⟩
    element := reads_atElement_name hname he hd
    unlabeled := hl
    undeclared := fun gap hg => by
      rw [htext]
      exact undeclared_cons hg (bare_of_beginsExpr hbegins) (isQuote_of_isNameStart hstart)
        (ne_of_beginsExpr hbegins (by decide)) }

/-- A reference begins an element. -/
theorem begins_name (hname : isName name = true) (h : Behind .primary rest) :
    Begins level (name.toList ++ rest) :=
  begins_word hname h.ends h.undeclared fun _ => reads_label_name hname h.ends h.clear h.unlabeled

/-- A label begins an element. -/
theorem begins_label (hname : isName name = true) {gap : List Char} (hg : Slack gap) :
    Begins .labeled (name.toList ++ (gap ++ ':' :: rest)) := by
  have hbare : Bare (':' :: rest) := bare_cons (by decide) (by decide)
  exact begins_word hname (hg.ends (by decide))
    (undeclared_cons hg.trivia hbare (by decide) (by decide)) fun hl => absurd hl (by decide)

/-- The declaration of the next rule stands behind an expression. -/
theorem behind_rule {gap : List Char} (hg : Gap gap) (hname : isName name = true)
    (he : ∀ c, rest.head? = some c → isNamePart c = false) (hd : Declares true rest) :
    Behind level (gap ++ (name.toList ++ rest)) := by
  obtain ⟨c, cs, hc, hstart⟩ := exists_cons_of_isName hname
  have hbegins : beginsExpr c = true := beginsExpr_iff.mpr (Or.inr hstart)
  have hbare : Bare (c :: (cs ++ rest)) := bare_of_beginsExpr hbegins
  have htext : name.toList ++ rest = c :: (cs ++ rest) := by rw [hc, List.cons_append]
  have hahead : ahead (gap ++ (name.toList ++ rest)) = name.toList ++ rest := by
    rw [htext]
    exact ahead_append hg.trivia hbare
  have hne (d : Char) (hd : isNameStart d = false) :
      (ahead (gap ++ (name.toList ++ rest))).head? ≠ some d := by
    rw [hahead, htext]
    exact fun he => ne_of_isNameStart hstart hd (Option.some.inj he)
  exact {
    ends := hg.ends _
    clear := by
      rw [htext]
      exact clear_append hg.trivia hbare
    unlabeled := hne ':' (by decide)
    unassigned := hne '=' (by decide)
    undeclared := by
      rw [htext]
      exact undeclared_cons hg.trivia hbare (isQuote_of_isNameStart hstart)
        (ne_of_isNameStart hstart (by decide))
    unsuffixed := fun _ a ha => by
      rw [← Option.not_isSome_iff_eq_none, suffixOperator?_isSome]
      rintro (rfl | rfl | rfl) <;> exact absurd ha (hne _ (by decide))
    noElement := fun _ => by
      rw [hahead]
      exact reads_atElement_name hname he hd
    noCode := fun _ => hne '\x7b' (by decide)
    noSlash := fun _ => hne '/' (by decide) }

end Names

/-- The end of the text stands behind an expression. -/
theorem behind_end {gap : List Char} (hg : Slack gap) : Behind level gap := by
  have hclear : Clear gap := ⟨gap, [], hg.trivia, bare_nil, (List.append_nil gap).symm⟩
  have hahead : ahead gap = [] := by
    have h := ahead_append hg.trivia bare_nil
    rwa [List.append_nil] at h
  have hne (c : Char) : (ahead gap).head? ≠ some c := by
    rw [hahead]
    exact nofun
  exact {
    ends := by
      rcases hg with rfl | hg
      · exact nofun
      · have h := hg.ends []
        rwa [List.append_nil] at h
    clear := hclear
    unlabeled := hne ':'
    unassigned := hne '='
    undeclared := by
      have h := declares_of_ahead hclear (by rw [hahead]; rfl)
      rwa [hahead] at h
    unsuffixed := fun _ c hc => absurd hc (hne c)
    noElement := fun _ => by
      rw [hahead]
      exact reads_pure rfl
    noCode := fun _ => hne '\x7b'
    noSlash := fun _ => hne '/' }

end Elements

end Peg.Notation
