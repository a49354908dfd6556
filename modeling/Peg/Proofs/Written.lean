import Mathlib.Data.List.DropRight
import Peg.Proofs.Roundtrip

/-! What readers give can be written again, and needs no further groups: at each level they give
expressions of that level or a tighter one. So printing and reading are inverse, and what stands
between the tokens of a text has no meaning. -/
namespace Peg.Notation

variable {α β : Type}

def Gives (r : Reader α) (P : α → Prop) : Prop :=
  ∀ c a c', r c = .ok (a, c') → P a

section Readers

variable {r : Reader α} {f : α → Reader β} {P : α → Prop} {Q : β → Prop}

theorem gives_true (r : Reader α) : Gives r fun _ => True := fun _ _ _ _ => trivial

theorem gives_pure {a : α} (h : P a) : Gives (pure a) P := by
  intro c b c' hb
  cases hb
  exact h

theorem gives_failHere (fault : Fault) : Gives (failHere fault) P := nofun

theorem Gives.bind (h : Gives r P) (h' : ∀ a, P a → Gives (f a) Q) : Gives (r >>= f) Q := by
  intro c b c' hb
  change (r c >>= fun p => f p.1 p.2) = _ at hb
  cases hr : r c with
  | error e => rw [hr] at hb; cases hb
  | ok p =>
    rw [hr] at hb
    exact h' p.1 (h c p.1 p.2 hr) p.2 b c' hb

/-- A reader whose result does not matter comes first. -/
theorem gives_after (h : ∀ a, Gives (f a) Q) : Gives (r >>= f) Q :=
  (gives_true r).bind fun a _ => h a

theorem Gives.map {g : α → β} (h : Gives r P) (hg : ∀ a, P a → Q (g a)) :
    Gives (r >>= fun a => pure (g a)) Q :=
  h.bind fun a ha => gives_pure (hg a ha)

theorem Gives.imp {P' : α → Prop} (h : Gives r P) (hp : ∀ a, P a → P' a) : Gives r P' :=
  fun c a c' hr => hp a (h c a c' hr)

theorem Gives.collect {step : Reader (Option α)} (h : Gives step fun found => ∀ a ∈ found, P a) :
    Gives (collect step) fun found => ∀ a ∈ found, P a := by
  have hwithin (bound : List Char) : Gives (collectWithin step bound) fun found =>
      ∀ a ∈ found, P a := by
    induction bound with
    | nil =>
      unfold collectWithin
      refine h.bind fun found hfound => ?_
      cases found with
      | none => exact gives_pure (List.forall_mem_nil P)
      | some a => exact gives_pure (List.forall_mem_singleton.mpr (hfound a rfl))
    | cons b bound ih =>
      unfold collectWithin
      refine h.bind fun found hfound => ?_
      cases found with
      | none => exact gives_pure (List.forall_mem_nil P)
      | some a => exact ih.map fun as has => List.forall_mem_cons.mpr ⟨hfound a rfl, has⟩
  exact fun c => hwithin c.rest c

theorem Gives.further {ready : Reader Bool} {item : Reader α} (h : Gives item P) :
    Gives (further ready item) fun found => ∀ a ∈ found, P a := by
  refine gives_after fun behind => gives_after fun _ => gives_after fun found => ?_
  cases found with
  | true => exact h.map fun a ha b hb => by cases hb; exact ha
  | false => exact gives_after fun _ => gives_pure nofun

end Readers

section Tokens

/-- What is read as a name is one unless it is a reserved word. -/
theorem gives_identifier : Gives identifier fun found =>
    ∀ name ∈ found, name ∉ reservedWords → isName name = true := by
  intro c found c' h
  unfold identifier at h
  split_ifs at h with hstart
  · cases h
    intro name hname hreserved
    cases hname
    obtain ⟨a, hpeek, hfirst⟩ := (Option.any_eq_true _ _).mp hstart
    obtain ⟨rest, hrest⟩ := Cursor.peek_eq_some hpeek
    have hname : c.rest.takeWhile isNamePart = a :: rest.takeWhile isNamePart := by
      rw [hrest, List.takeWhile_cons_of_pos (isNamePart_of_isNameStart hfirst)]
    refine isName_iff.mpr ⟨⟨a, rest.takeWhile isNamePart, ?_, hfirst⟩, fun b hb => ?_, hreserved⟩
    · rw [String.toList_ofList]
      exact hname
    · rw [String.toList_ofList] at hb
      exact List.mem_takeWhile_imp hb
  · cases h
    intro name hname
    cases hname

theorem gives_checkReserved (name : String) (start stop : Cursor) :
    Gives (checkReserved name start stop) fun _ => name ∉ reservedWords := by
  intro c a c' h
  unfold checkReserved at h
  split_ifs at h with hreserved
  exact hreserved

/-- The parts of a class that is read hold characters. -/
theorem gives_charClass : Gives charClass fun members =>
    ∀ part ∈ members.parts, part.isOrdered = true := by
  have hpart (opened : Position) : Gives (classPart opened) fun found =>
      ∀ parts ∈ found, ∀ part ∈ parts, part.isOrdered = true := by
    have hsingle (c : Char) : (ClassPart.single c).isOrdered = true :=
      decide_eq_true (Char.le_refl c)
    refine gives_after fun first => ?_
    cases first with
    | none => exact gives_pure nofun
    | some first =>
      refine gives_after fun here => ?_
      split_ifs with hdash
      · refine gives_pure fun parts hparts => ?_
        cases hparts
        exact List.forall_mem_singleton.mpr (hsingle first)
      · refine gives_after fun _ => gives_after fun last => ?_
        cases last with
        | none =>
          refine gives_pure fun parts hparts => ?_
          cases hparts
          exact List.forall_mem_cons.mpr
            ⟨hsingle first, List.forall_mem_singleton.mpr (hsingle '-')⟩
        | some last =>
          dsimp only
          split_ifs with hlt
          · exact gives_failHere _
          · refine gives_pure fun parts hparts => ?_
            cases hparts
            exact List.forall_mem_singleton.mpr (decide_eq_true (Char.not_lt.mp hlt))
  refine gives_after fun opened => gives_after fun _ => gives_after fun inverted => ?_
  refine (hpart opened.position).collect.bind fun parts hparts => ?_
  refine gives_after fun _ => gives_after fun ignoreCase => gives_pure fun part hp => ?_
  obtain ⟨found, hfound, hp⟩ := List.mem_flatten.mp hp
  exact hparts found hfound part hp

theorem openBlocks_other {c : Char} (hopen : c ≠ '\x7b') (hclose : c ≠ '\x7d') (depth : Nat)
    (cs : List Char) : openBlocks depth (c :: cs) = openBlocks depth cs := by
  conv_lhs => unfold openBlocks
  rw [if_neg hopen, if_neg hclose]

theorem openBlocks_of_blank {cs : List Char} (h : ∀ c ∈ cs, Unicode.isBlank c = true)
    (depth : Nat) :
    openBlocks depth cs = some depth := by
  induction cs with
  | nil => rfl
  | cons c cs ih =>
    obtain ⟨hc, hcs⟩ := List.forall_mem_cons.mp h
    have hopen : c ≠ '\x7b' := by
      rintro rfl
      exact absurd hc (by decide)
    have hclose : c ≠ '\x7d' := by
      rintro rfl
      exact absurd hc (by decide)
    rw [openBlocks_other hopen hclose]
    exact ih hcs

/-- Trimming leaves what is inside blocks. -/
theorem openBlocks_trimBlank (cs : List Char) :
    openBlocks 0 (Unicode.trimBlank cs) = openBlocks 0 cs := by
  have hfront : openBlocks 0 cs = openBlocks 0 (cs.dropWhile Unicode.isBlank) := by
    conv_lhs => rw [← List.takeWhile_append_dropWhile (p := Unicode.isBlank) (l := cs)]
    rw [openBlocks_append, openBlocks_of_blank fun c hc => List.mem_takeWhile_imp hc]
    rfl
  have hback (ds : List Char) :
      openBlocks 0 ds = openBlocks 0 (ds.rdropWhile Unicode.isBlank) := by
    conv_lhs => rw [← List.rdropWhile_append_rtakeWhile (p := Unicode.isBlank) (l := ds)]
    rw [openBlocks_append]
    cases openBlocks 0 (ds.rdropWhile Unicode.isBlank) with
    | none => rfl
    | some depth =>
      exact openBlocks_of_blank (fun c hc => List.mem_rtakeWhile_imp hc) depth
  exact (hfront.trans (hback _)).symm

theorem trimBlank_trimBlank (cs : List Char) :
    Unicode.trimBlank (Unicode.trimBlank cs) = Unicode.trimBlank cs := by
  have htrim (cs : List Char) : Unicode.trimBlank cs =
      (cs.dropWhile Unicode.isBlank).rdropWhile Unicode.isBlank := rfl
  have hfront : (Unicode.trimBlank cs).dropWhile Unicode.isBlank = Unicode.trimBlank cs := by
    rw [List.dropWhile_eq_self_iff]
    intro hpos
    have hbefore : Unicode.trimBlank cs <+: cs.dropWhile Unicode.isBlank :=
      List.rdropWhile_prefix _ _
    have hpos' : 0 < (cs.dropWhile Unicode.isBlank).length := hpos.trans_le hbefore.length_le
    rw [hbefore.getElem hpos]
    exact List.dropWhile_get_zero_not _ cs hpos'
  rw [htrim (Unicode.trimBlank cs), hfront, htrim cs, List.rdropWhile_idempotent]

/-- What is before the brace that closes a block has all braces in pairs. -/
theorem openBlocks_take {depth n : Nat} {cs : List Char} (h : codeLength depth cs = some n) :
    openBlocks depth (cs.take n) = some 0 := by
  induction cs generalizing depth n with
  | nil => cases h
  | cons c cs ih =>
    unfold codeLength at h
    have hsucc {depth' : Nat} (hc : ∀ ds, openBlocks depth (c :: ds) = openBlocks depth' ds)
        (h : (codeLength depth' cs).map (· + 1) = some n) :
        openBlocks depth ((c :: cs).take n) = some 0 := by
      obtain ⟨m, hm, rfl⟩ := Option.map_eq_some_iff.mp h
      rw [List.take_succ_cons, hc]
      exact ih hm
    split_ifs at h with hopen hclose
    · exact hsucc (fun ds => by conv_lhs => unfold openBlocks; rw [if_pos hopen]) h
    · cases depth with
      | zero =>
        cases h
        rfl
      | succ depth => exact hsucc (fun ds => by
          conv_lhs => unfold openBlocks; rw [if_neg hopen, if_pos hclose]) h
    · exact hsucc (openBlocks_other hopen hclose depth) h

theorem gives_codeBlock : Gives codeBlock fun code => isCode code = true := by
  intro c code c' h
  unfold codeBlock at h
  dsimp only at h
  split at h
  case h_1 n hn =>
    cases h
    unfold isCode
    rw [String.toList_ofList, Bool.and_eq_true, beq_iff_eq, beq_iff_eq]
    exact ⟨trimBlank_trimBlank _, (openBlocks_trimBlank _).trans (openBlocks_take hn)⟩
  case h_2 => cases h

end Tokens

end Peg.Notation

namespace Peg

open Notation

/-- The expression can be written where the notation wants `least`, as it is. -/
structure Expr.Written (least : Level) (e : Expr) : Prop where
  spelled : e.Spelled
  regroup : e.regroup = e
  tight : least.rank ≤ e.level.rank

namespace Expr

variable {least : Level} {e : Expr}

theorem Written.mono {level : Level} (h : e.Written level) (hl : least.rank ≤ level.rank) :
    e.Written least :=
  ⟨h.spelled, h.regroup, hl.trans h.tight⟩

theorem Written.enclose (h : e.Written least) : least.enclose e.level e.regroup = e := by
  unfold Level.enclose
  rw [if_neg (Nat.not_lt.mpr h.tight), h.regroup]

theorem written_leaf (hs : e.subterms = [e]) (hroot : e.isSpelledRoot = true) (hg : e.regroup = e)
    (hl : least.rank ≤ e.level.rank) : e.Written least :=
  ⟨fun part hp => by rw [hs, List.mem_singleton] at hp; rwa [hp], hg, hl⟩

theorem written_wrapped (span : Span) {wrapper : Wrapper} (hw : wrapper.isSpelled = true)
    (h : e.Written wrapper.operandLevel)
    (hl : least.rank ≤ (wrapped span wrapper e).level.rank) :
    (wrapped span wrapper e).Written least := by
  refine ⟨spelled_wrapped.mpr ⟨hw, h.spelled⟩, ?_, hl⟩
  rw [Expr.regroup, h.enclose]

theorem regroupOperands_written {es : List Expr} (h : ∀ e ∈ es, e.Written least) :
    regroupOperands least es = es := by
  rw [regroupOperands_eq_map, List.map_congr_left fun e he => (h e he).enclose, List.map_id']

theorem written_sequence (span : Span) {first : Expr} {others : List Expr}
    (h : ∀ e ∈ first :: others, e.Written .labeled) (hne : others ≠ []) :
    (sequence span (first :: others)).Written .sequence := by
  have hlen : 2 ≤ (first :: others).length := Nat.succ_le_succ (List.length_pos_iff.mpr hne)
  refine ⟨spelled_sequence.mpr ⟨hlen, fun e he => (h e he).spelled⟩, ?_, le_rfl⟩
  rw [Expr.regroup, regroupOperands_written h]

theorem written_choice (span : Span) {first : Expr} {others : List Expr}
    (h : ∀ e ∈ first :: others, e.Written .action) (hne : others ≠ []) :
    (choice span (first :: others)).Written .choice := by
  have hlen : 2 ≤ (first :: others).length := Nat.succ_le_succ (List.length_pos_iff.mpr hne)
  refine ⟨spelled_choice.mpr ⟨hlen, fun e he => (h e he).spelled⟩, ?_, le_rfl⟩
  rw [Expr.regroup, regroupOperands_written h]

end Expr

namespace Notation

section Levels

variable {nested : Reader Expr} (hnested : Gives nested (Expr.Written .choice))

include hnested

theorem gives_primary : Gives (primary nested) (Expr.Written .primary) := by
  refine gives_after fun start => ?_
  cases start.peek with
  | none => exact gives_failHere _
  | some c =>
    dsimp only
    split_ifs
    · refine gives_after fun text => gives_after fun ignoreCase => gives_after fun span => ?_
      exact gives_pure (Expr.written_leaf rfl rfl (Expr.regroup_literal ..) le_rfl)
    · refine gives_charClass.bind fun members hm => gives_after fun span => ?_
      exact gives_pure (Expr.written_leaf rfl (List.all_eq_true.mpr hm)
        (Expr.regroup_charClass ..) le_rfl)
    · refine gives_after fun _ => gives_after fun span => ?_
      exact gives_pure (Expr.written_leaf rfl rfl (Expr.regroup_any _) le_rfl)
    · refine gives_after fun _ => gives_after fun _ => hnested.bind fun body hbody => ?_
      refine gives_after fun _ => gives_after fun closed => ?_
      cases closed with
      | true =>
        exact gives_after fun span => gives_pure (Expr.written_wrapped span rfl hbody le_rfl)
      | false => exact gives_failHere _
    · refine gives_identifier.bind fun found hfound => ?_
      cases found with
      | none => exact gives_failHere _
      | some name =>
        refine gives_after fun stop => (gives_checkReserved name start stop).bind fun _ hn => ?_
        refine gives_after fun span => gives_pure ?_
        exact Expr.written_leaf rfl (hfound name rfl hn) (Expr.regroup_ruleRef ..) le_rfl

theorem gives_suffixed : Gives (suffixed nested) (Expr.Written .suffixed) := by
  refine gives_after fun start => (gives_primary hnested).bind fun body hbody => ?_
  refine gives_after fun behind => gives_after fun _ => gives_after fun next => ?_
  cases hnext : next.bind suffixOperator? with
  | none => exact gives_after fun _ => gives_pure (hbody.mono (by decide))
  | some wrapper =>
    refine gives_after fun _ => gives_after fun span => gives_pure ?_
    obtain ⟨c, -, hc⟩ := Option.bind_eq_some_iff.mp hnext
    unfold suffixOperator? at hc
    split at hc
    case h_4 => cases hc
    all_goals
      cases hc
      exact Expr.written_wrapped span rfl hbody le_rfl

theorem gives_prefixed : Gives (prefixed nested) (Expr.Written .prefixed) := by
  refine gives_after fun start => ?_
  cases hoperator : start.peek.bind fun c =>
    (prefixOperator? c).map fun wrapper => (c, wrapper) with
  | none => exact (gives_suffixed hnested).imp fun e he => he.mono (by decide)
  | some found =>
    obtain ⟨c, wrapper⟩ := found
    refine gives_after fun _ => gives_after fun _ => gives_after fun following => ?_
    split_ifs
    · refine gives_codeBlock.bind fun code hcode => gives_after fun span => gives_pure ?_
      exact Expr.written_leaf rfl hcode (Expr.regroup_predicate ..) le_rfl
    · refine (gives_suffixed hnested).bind fun body hbody => gives_after fun span => gives_pure ?_
      obtain ⟨a, -, ha⟩ := Option.bind_eq_some_iff.mp hoperator
      obtain ⟨found, hc, heq⟩ := Option.map_eq_some_iff.mp ha
      cases heq
      unfold prefixOperator? at hc
      split at hc
      case h_4 => cases hc
      all_goals
        cases hc
        exact Expr.written_wrapped span rfl hbody le_rfl
    · exact gives_failHere _

omit hnested in
theorem gives_label : Gives label fun found => ∀ name ∈ found, isName name = true := by
  refine gives_after fun start => gives_identifier.bind fun found hfound => ?_
  cases found with
  | none => exact gives_pure nofun
  | some name =>
    refine gives_after fun stop => gives_after fun _ => gives_after fun colon => ?_
    cases colon with
    | false => exact gives_after fun _ => gives_pure nofun
    | true =>
      refine (gives_checkReserved name start stop).map fun _ hn label hl => ?_
      cases hl
      exact hfound name rfl hn

theorem gives_labeled : Gives (labeled nested) (Expr.Written .labeled) := by
  refine gives_after fun start => gives_label.bind fun found hfound => ?_
  cases found with
  | none => exact (gives_prefixed hnested).imp fun e he => he.mono (by decide)
  | some name =>
    refine gives_after fun _ => (gives_prefixed hnested).bind fun body hbody => ?_
    refine gives_after fun span => gives_pure ?_
    exact Expr.written_wrapped span (hfound name rfl) hbody le_rfl

theorem gives_sequence : Gives (sequence nested) (Expr.Written .sequence) := by
  have helement := gives_labeled hnested
  refine gives_after fun start => helement.bind fun first hfirst => ?_
  refine helement.further.collect.bind fun others hothers => ?_
  cases others with
  | nil => exact gives_pure (hfirst.mono (by decide))
  | cons second others =>
    refine gives_after fun span => gives_pure ?_
    exact Expr.written_sequence span (List.forall_mem_cons.mpr ⟨hfirst, hothers⟩) nofun

theorem gives_action : Gives (action nested) (Expr.Written .action) := by
  refine gives_after fun start => (gives_sequence hnested).bind fun body hbody => ?_
  refine gives_codeBlock.further.bind fun found hfound => ?_
  cases found with
  | none => exact gives_pure (hbody.mono (by decide))
  | some code =>
    refine gives_after fun span => gives_pure ?_
    exact Expr.written_wrapped span (hfound code rfl) hbody le_rfl

theorem gives_choice : Gives (choice nested) (Expr.Written .choice) := by
  have halternative := gives_action hnested
  refine gives_after fun start => halternative.bind fun first hfirst => ?_
  refine (gives_after fun _ => halternative).further.collect.bind fun others hothers => ?_
  cases others with
  | nil => exact gives_pure (hfirst.mono (by decide))
  | cons second others =>
    refine gives_after fun span => gives_pure ?_
    exact Expr.written_choice span (List.forall_mem_cons.mpr ⟨hfirst, hothers⟩) nofun

end Levels

theorem gives_expression (depth : Nat) : Gives (expression depth) (Expr.Written .choice) := by
  induction depth with
  | zero => exact gives_failHere _
  | succ depth ih => exact gives_choice ih

end Notation

structure Rule.Written (rule : Rule) : Prop where
  name : isName rule.name = true
  body : rule.body.Spelled
  regroup : rule.regroup = rule

section Rules

variable {name : String} {body : Expr} (span : Span)

theorem Rule.written_plain (hname : isName name = true) (h : body.Written .choice) :
    Rule.Written ⟨name, body, span⟩ := by
  have hn : body.asNamed? = none := h.spelled.asNamed? body body.mem_subterms_self
  refine ⟨hname, ?_, ?_⟩
  · unfold Rule.body
    rw [hn]
    exact h.spelled
  · unfold Rule.regroup
    rw [h.regroup]

theorem Rule.written_named (hname : isName name = true) (h : body.Written .choice) (span' : Span)
    (display : String) : Rule.Written ⟨name, .wrapped span' (.named display) body, span⟩ := by
  refine ⟨hname, h.spelled, ?_⟩
  unfold Rule.regroup
  rw [Expr.regroup, Wrapper.operandLevel, Level.enclose_choice, h.regroup]

end Rules

structure Grammar.Written (g : Grammar) : Prop where
  writable : g.Writable
  regroup : g.regroup = g

namespace Notation

theorem gives_rule : Gives rule Rule.Written := by
  refine gives_after fun start => gives_identifier.bind fun found hfound => ?_
  cases found with
  | none => exact gives_after fun next => gives_failHere _
  | some name =>
    refine gives_after fun stop => (gives_checkReserved name start stop).bind fun _ hn => ?_
    have hname : isName name = true := hfound name rfl hn
    refine gives_after fun _ => gives_after fun display => gives_after fun assigned => ?_
    cases assigned with
    | false => exact gives_failHere _
    | true =>
      refine gives_after fun _ => gives_after fun behind => ?_
      refine (gives_expression _).bind fun body hbody => ?_
      cases display with
      | none =>
        refine Gives.bind (P := (· = body)) (gives_pure rfl) fun expr hexpr => ?_
        refine gives_after fun span => gives_after fun _ => gives_pure ?_
        rw [hexpr]
        exact Rule.written_plain span hname hbody
      | some display =>
        refine gives_after fun span' => ?_
        refine Gives.bind (P := (· = .wrapped span' (.named display.1) body)) (gives_pure rfl)
          fun expr hexpr => ?_
        refine gives_after fun span => gives_after fun _ => gives_pure ?_
        rw [hexpr]
        exact Rule.written_named span hname hbody span' display.1

theorem gives_initializer : Gives initializer fun found => ∀ i ∈ found, isCode i.code = true := by
  refine gives_after fun start => ?_
  split_ifs
  · refine gives_codeBlock.bind fun code hcode => gives_after fun span => ?_
    refine gives_after fun _ => gives_after fun _ => gives_pure fun i hi => ?_
    cases hi
    exact hcode
  · exact gives_pure nofun

/-- What is read as a grammar can be written as it is. -/
theorem gives_grammar : Gives grammar Grammar.Written := by
  have hnext : Gives nextRule fun found => ∀ rule ∈ found, rule.Written := by
    refine gives_after fun _ => gives_after fun start => ?_
    split_ifs
    · exact gives_pure nofun
    · refine gives_rule.map fun rule hrule rule' h => ?_
      cases h
      exact hrule
  refine gives_after fun start => gives_after fun _ => gives_initializer.bind fun found hfound => ?_
  refine hnext.collect.bind fun rules hrules => ?_
  cases rules with
  | nil => exact gives_failHere _
  | cons first rules =>
    refine gives_after fun span => gives_pure ?_
    have hwritable : Grammar.Writable ⟨found, first :: rules, span⟩ := {
      nonempty := List.cons_ne_nil first rules
      names := fun rule hm => (hrules rule hm).name
      bodies := fun rule hm => (hrules rule hm).body
      initializer := fun i hi => hfound i hi }
    refine ⟨hwritable, ?_⟩
    unfold Grammar.regroup
    rw [List.map_congr_left fun rule hm => (hrules rule hm).regroup, List.map_id']

end Notation

namespace Grammar

theorem written_of_parse {text : String} {g : Grammar} (h : parse text = .ok g) : g.Written := by
  unfold parse at h
  cases hrun : Notation.grammar.run (Cursor.ofText text) with
  | error e => rw [hrun] at h; cases h
  | ok p =>
    rw [hrun] at h
    cases h
    exact gives_grammar _ p.1 p.2 hrun

/-- Every text of a grammar's tokens reads as the grammar with the groups that writing it adds. -/
theorem Writable.parse_laid {g : Grammar} (h : g.Writable) {tokens : List Token} {text : String}
    (hterm : Terminated g.declarations tokens) (hlaid : Laid tokens text.toList) :
    ∃ g', parse text = .ok g' ∧ g'.unlocated = g.regroup.unlocated := by
  obtain ⟨g', position', hread, hg'⟩ := reads_grammar h hterm hlaid .start
  refine ⟨g', ?_, hg'⟩
  rw [List.append_nil] at hread
  unfold parse
  change Except.map _ (Notation.grammar ⟨.start, text.toList⟩) = _
  rw [hread]
  rfl

/-- What is written of a grammar reads as the grammar with the groups that were added. -/
theorem Writable.exists_parse {g : Grammar} (h : g.Writable) :
    ∃ g', parse g.text = .ok g' ∧ g'.unlocated = g.regroup.unlocated :=
  h.parse_laid (terminated_flatten _) h.laid_text

/-- Up to spans and the groups that are added, printing and reading are inverse: a grammar that can
be written reads back from its text as itself, printed again it gives the same text, and a grammar
that was read needs no further groups. -/
theorem parse_render :
    (∀ g : Grammar, g.Writable → ∃ text g', g.render = .ok text ∧ parse text = .ok g' ∧
      g'.unlocated = g.regroup.unlocated ∧ g'.render = .ok text) ∧
    ∀ text g, parse text = .ok g → g.Writable ∧ ∃ text' g', g.render = .ok text' ∧
      parse text' = .ok g' ∧ g'.unlocated = g.unlocated := by
  refine ⟨fun g h => ?_, fun text g hp => ?_⟩
  · obtain ⟨g', hparse, hg'⟩ := h.exists_parse
    have htext : g'.text = g.text := by
      rw [← text_unlocated g', hg', text_unlocated, text_regroup]
    refine ⟨g.text, g', render_eq_ok h.bodies, hparse, hg', ?_⟩
    rw [render_eq_ok (written_of_parse hparse).writable.bodies, htext]
  · have hw := written_of_parse hp
    obtain ⟨g', hparse, hg'⟩ := hw.writable.exists_parse
    rw [hw.regroup] at hg'
    exact ⟨hw.writable, g.text, g', render_eq_ok hw.writable.bodies, hparse, hg'⟩

/-- Operands of too loose levels, a display name, and a literal in front of a rule called `i`. -/
def looseGrammar : Grammar where
  initializer := some ⟨"let n = \x7b\x7d;", .none⟩
  rules := [
    ⟨"start", .wrapped .none (.named "opening") (.sequence .none [
      .choice .none [.literal .none ⟨"a", false⟩, .ruleRef .none "i"],
      .wrapped .none .optional (.wrapped .none .text (.literal .none ⟨"\n", false⟩))]), .none⟩,
    ⟨"i", .charClass .none ⟨[.range 'a' 'z', .single ']'], true, false⟩, .none⟩]
  span := .none

example : looseGrammar.text = "\x7b let n = \x7b\x7d; \x7d\n\n" ++
    "start \"opening\" = (\"a\" / i) ($\"\\n\")?\ni = [^a-z\\]]\n" := by
  decide

theorem writable_looseGrammar : looseGrammar.Writable where
  nonempty := List.cons_ne_nil _ _
  names := by decide +kernel
  bodies := by decide +kernel
  initializer i hi := by cases hi; decide +kernel

theorem parse_render_loose : looseGrammar.Writable ∧ ∃ text g', looseGrammar.render = .ok text ∧
    parse text = .ok g' ∧ g'.unlocated = looseGrammar.regroup.unlocated ∧ g'.Writable := by
  have hw := writable_looseGrammar
  obtain ⟨text, g', hrender, hparse, hg', -⟩ := parse_render.1 looseGrammar hw
  exact ⟨hw, text, g', hrender, hparse, hg', (parse_render.2 text g' hparse).1⟩

/-- Trivia and semicolons have no meaning. What is printed of a grammar that was read is made of the
grammar's tokens, and every text that is made of these reads as the same grammar up to spans,
whatever gaps there are before, between and behind them, and whichever of its initializer and its
rules have a semicolon behind them. -/
theorem parse_of_laid {text : String} {g : Grammar} (h : parse text = .ok g) :
    (∃ printed, g.render = .ok printed ∧ Laid g.declarations.flatten printed.toList) ∧
    ∀ tokens text', Terminated g.declarations tokens → Laid tokens text'.toList →
      ∃ g', parse text' = .ok g' ∧ g'.unlocated = g.unlocated := by
  have hw := written_of_parse h
  refine ⟨⟨g.text, render_eq_ok hw.writable.bodies, hw.writable.laid_text⟩,
    fun tokens text' hterm hlaid => ?_⟩
  obtain ⟨g', hparse, hg'⟩ := hw.writable.parse_laid hterm hlaid
  rw [hw.regroup] at hg'
  exact ⟨g', hparse, hg'⟩

def eitherText : String := "a = 'x'i / b\nb = ."

theorem parse_eitherText : ∃ g, parse eitherText = .ok g ∧ g.declarations =
    [[.name "a", .symbol '=', .literal ⟨"x", true⟩, .symbol '/', .name "b"],
      [.name "b", .symbol '=', .symbol '.']] := by
  have hdeclarations : (parse eitherText).toOption.map declarations = some
      [[.name "a", .symbol '=', .literal ⟨"x", true⟩, .symbol '/', .name "b"],
        [.name "b", .symbol '=', .symbol '.']] := by
    decide +kernel
  cases hparse : parse eitherText with
  | error e =>
    rw [hparse] at hdeclarations
    cases hdeclarations
  | ok g =>
    rw [hparse] at hdeclarations
    exact ⟨g, rfl, Option.some.inj hdeclarations⟩

/-- The comments look like rules, and a semicolon ends the first one. -/
theorem parse_of_laid_either : ∃ g g', parse eitherText = .ok g ∧
    parse " // a = b\n a /* 'y' = */ = \"x\"i\t/b;\n\tb=. " = .ok g' ∧
    g'.unlocated = g.unlocated := by
  obtain ⟨g, hparse, hdeclarations⟩ := parse_eitherText
  have hterm : Terminated g.declarations [.name "a", .symbol '=', .literal ⟨"x", true⟩, .symbol '/',
      .name "b", .symbol ';', .name "b", .symbol '=', .symbol '.'] := by
    rw [hdeclarations]
    exact .semicolon _ _ _ (.plain _ _ _ .nil)
  have hline : Gap [' ', '/', '/', ' ', 'a', ' ', '=', ' ', 'b', '\n', ' '] :=
    ⟨.blank ' ' _ (by decide) (.line [' ', 'a', ' ', '=', ' ', 'b'] _ (by decide) trivia_blank),
      ' ', _, rfl, by decide⟩
  have hblock : Gap [' ', '/', '*', ' ', '\'', 'y', '\'', ' ', '=', ' ', '*', '/', ' '] :=
    ⟨.blank ' ' _ (by decide) (.block [' ', '\'', 'y', '\'', ' ', '=', ' '] _ (by decide)
      trivia_blank), ' ', _, rfl, by decide⟩
  have htab : Gap ['\t'] := ⟨.blank '\t' _ (by decide) .nil, '\t', _, rfl, by decide⟩
  have hline' : Gap ['\n', '\t'] := ⟨.blank '\n' _ (by decide) htab.trivia, '\n', _, rfl, by decide⟩
  have hnothing {before : Option Token} {t : Token} (h : t.closes = true) :
      Space before (some t) [] := space_closes h before
  have hrow : Spread none [.name "a", .symbol '=', .literal ⟨"x", true⟩, .symbol '/', .name "b",
      .symbol ';', .name "b", .symbol '=', .symbol '.'] _ :=
    .cons _ _ _ _ _ (Or.inl hline) <| .cons _ _ _ _ _ (Or.inl hblock) <|
    .cons _ _ _ _ _ (space_blank _ _) <| .cons _ _ _ _ _ (Or.inl htab) <|
    .cons _ _ _ _ _ (space_opens rfl _) <| .cons _ _ _ _ _ (hnothing rfl) <|
    .cons _ _ _ _ _ (Or.inl hline') <| .cons _ _ _ _ _ (hnothing rfl) <|
    .cons _ _ _ _ _ (space_opens rfl _) <| .nil _
  have hlaid : Laid _ " // a = b\n a /* 'y' = */ = \"x\"i\t/b;\n\tb=. ".toList :=
    ⟨_, [' '], rfl, hrow, space_blank _ _⟩
  obtain ⟨g', hparse', hg'⟩ := (parse_of_laid hparse).2 _ _ hterm hlaid
  exact ⟨g, g', hparse, hparse', hg'⟩

end Grammar

end Peg
