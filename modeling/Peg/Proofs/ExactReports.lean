import Peg.Proofs.Assembly
import Peg.Proofs.CachedReports
import Peg.Proofs.Positions

/-! Exact reports. The error of a parse without a match is noted bit by bit while the cursor goes to
and fro; it tells what a look at all failures of the parse does: the furthest of their places, and
what was expected there. Failures under a display name and in a lookahead do not count. -/
namespace Peg

variable {σ α ε : Type}

/-- The report tells these failures, which happened in a parse of the input. -/
structure Failures.Reported (program : Program) (input : String) (fs : Failures)
    (expected : List Expectation) (found : Option String) (span : Span) : Prop where
  /-- No failure lies behind the place of the report. -/
  furthest : ∀ f ∈ fs, f.2.offset ≤ span.start.offset
  /-- One lies at it; without any, the place is the start of the input. -/
  reached : (∃ f ∈ fs, f.2.offset = span.start.offset) ∨ fs = [] ∧ span.start.offset = 0
  /-- What is reported was expected there, in the order in which it first was. -/
  expected : ∃ wanted, List.Forall₂ (fun f e => program.expectations[f.1]? = some e)
    (fs.filter (·.2.offset = span.start.offset)) wanted ∧ expected = wanted.eraseDups
  /-- What is found is the character at the place, if the input goes on there. -/
  place : ∃ before after, input.toList = before ++ after ∧ found = after.head?.map Char.toString ∧
    span = ⟨Position.start.advanceBy before, Position.start.advanceBy (before ++ after.take 1)⟩

theorem forall₂_filterMap {β γ : Type} {f : β → Option γ} {bs : List β}
    (h : ∀ b ∈ bs, ∃ c, f b = some c) :
    List.Forall₂ (fun b c => f b = some c) bs (bs.filterMap f) := by
  induction bs with
  | nil => exact .nil
  | cons b bs ih =>
    obtain ⟨⟨c, hc⟩, hbs⟩ := List.forall_mem_cons.mp h
    rw [List.filterMap_cons_some hc]
    exact .cons hc (ih hbs)

/-- What is noted of failures tells them. -/
theorem Record.exists_reported (program : Program) {input : String} {fs : Failures}
    (hreach : ∀ f ∈ fs, (Cursor.ofText input).Reaches f.2)
    (hknown : ∀ f ∈ fs, ∃ e, program.expectations[f.1]? = some e) :
    ∃ expected found span, (ofFailures input fs).mismatch program = .mismatch expected found span ∧
      fs.Reported program input expected found span := by
  obtain ⟨hplace, hoffset, hexpected⟩ := ofFailures_spec hreach
  obtain ⟨before, after, htext, hc⟩ := Cursor.exists_of_ofText_reaches hplace
  have hstart : (ofFailures input fs).furthest.charSpan.start.offset = fs.furthest := hoffset
  refine ⟨_, _, _, rfl, fun f hf => ?_, ?_, ?_, before, after, htext, ?_, ?_⟩
  · rw [hstart]
    exact Failures.le_furthest hf
  · rw [hstart]
    rcases Failures.furthest_eq_zero_or_mem fs with hzero | hmem
    · cases fs with
      | nil => exact Or.inr ⟨rfl, rfl⟩
      | cons f fs =>
        have hle := Failures.le_furthest (List.mem_cons_self (a := f) (l := fs))
        exact Or.inl ⟨f, List.mem_cons_self, by omega⟩
    · exact Or.inl hmem
  · rw [hstart]
    refine ⟨_, forall₂_filterMap fun f hf => hknown f (List.mem_of_mem_filter hf), ?_⟩
    rw [hexpected, Failures.expected, List.filterMap_map]
    rfl
  · rw [hc]
    rfl
  · have hnext : (⟨Position.start.advanceBy before, after⟩ : Cursor).next =
        ⟨Position.start.advanceBy (before ++ after.take 1), after.drop 1⟩ := by
      rw [Position.advanceBy_append]
      exact Cursor.skip_eq 1 _
    rw [hc, Cursor.charSpan, Cursor.spanTo, hnext]

namespace Derives

variable {rules : Array CompiledRule} {host : Host σ α ε} {d : Nat} {node : Node} {c : Cursor}
  {env : Scope α} {h h' : σ} {v : Verdict α ε} {log : List (Event α)}
  {ruleIndex : String → Option RuleId} {forSpeed : Bool} {expectations : Array Expectation}

/-- What is expected stands in the table, if all nodes are denoted by expressions. -/
theorem failures_known (hrules : ∀ (id : RuleId) (rule : CompiledRule), rules[id]? = some rule →
      ∃ e : Expr, e.Denotes ruleIndex forSpeed expectations rule.node)
    (hd : Derives rules host d node c env h v log h') {e : Expr}
    (hn : e.Denotes ruleIndex forSpeed expectations node) :
    ∀ f ∈ Event.failuresOf log, ∃ x, expectations[f.1]? = some x := by
  have hone {id : ExpectationId} {place : Cursor} {x : Expectation}
      (hi : expectations[id]? = some x) :
      ∀ f ∈ [(id, place)], ∃ x, expectations[f.1]? = some x :=
    List.forall_mem_singleton.mpr ⟨x, hi⟩
  induction hd generalizing e with
  | literal | charClass | any | sequence_nil | choice_nil | named | followedBy | notFollowedBy
  | predicate | predicate_error =>
    intro f hf
    cases hf
  | literal_missed => cases hn with | literal _ _ id hi => exact hone hi
  | charClass_missed => cases hn with | charClass _ _ id hi => exact hone hi
  | any_missed => cases hn with | any _ id hi => exact hone hi
  | named_failed =>
    cases hn with
    | wrapped _ _ _ _ _ hw _ =>
      cases hw with
      | named _ id hi => exact hone hi
      | plain _ _ hname hb =>
        cases hb
        exact absurd rfl (hname _)
  | ruleRef hr body ih =>
    obtain ⟨e, he⟩ := hrules _ _ hr
    intro f hf
    rw [Event.failuresOf, Event.failuresOf, Event.failures, List.append_nil] at hf
    exact ih he f hf
  | sequence_cons first rest ihf ihr =>
    cases hn with
    | sequence span _ _ hns =>
      cases hns with
      | cons hfirst hrest =>
        exact Event.forall_failuresOf_append.mpr ⟨ihf hfirst, ihr (.sequence span _ _ hrest)⟩
  | sequence_failed first ih | sequence_aborted first ih =>
    cases hn with
    | sequence span _ _ hns => cases hns with | cons hfirst _ => exact ih hfirst
  | choice_cons first rest ihf ihr =>
    cases hn with
    | choice span _ _ hns =>
      cases hns with
      | cons hfirst hrest =>
        exact Event.forall_failuresOf_append.mpr ⟨ihf hfirst, ihr (.choice span _ _ hrest)⟩
  | choice_matched first ih | choice_aborted first ih =>
    cases hn with
    | choice span _ _ hns => cases hns with | cons hfirst _ => exact ih hfirst
  | zeroOrMore_round inner hs rest ihi ihr =>
    refine Event.forall_failuresOf_append.mpr ⟨?_, ihr hn⟩
    cases hn with | wrapped _ _ _ _ _ _ hb => exact ihi hb
  | action inner hc ih | action_error inner hc ih =>
    cases hn with
    | wrapped _ _ _ _ _ _ hb =>
      exact Event.forall_failuresOf_append.mpr ⟨ih hb, fun f hf => absurd hf List.not_mem_nil⟩
  | oneOrMore rounds ih =>
    cases hn with
    | wrapped span _ _ _ _ _ hb =>
      have hplain (name : String) : Wrapper.zeroOrMore ≠ .named name := Wrapper.noConfusion
      exact ih (.wrapped span .zeroOrMore .zeroOrMore _ _ (.plain _ _ hplain .zeroOrMore) hb)
  | labeled inner ih | action_failed inner ih | action_aborted inner ih | text inner ih
  | optional inner ih | zeroOrMore_done inner ih | zeroOrMore_empty inner ih
  | zeroOrMore_aborted inner ih | group inner ih =>
    cases hn with | wrapped _ _ _ _ _ _ hb => exact ih hb

end Derives

/-- The failures of a parse from a start rule: those outside silence and, behind a match, that of
the end of the input. -/
def Program.Fails (program : Program) (host : Host σ α ε) (d : Nat) (start : RuleId) (memory : σ)
    (input : String) (fs : Failures) : Prop :=
  ∃ v log memory', Yields program host d start memory input v log memory' ∧
    fs = Event.failuresOf log ++ v.missed program

/-- There is one list of failures at most. -/
theorem Program.Fails.unique {program : Program} {host : Host σ α ε} {d d' : Nat} {start : RuleId}
    {memory : σ} {input : String} {fs gs : Failures}
    (hf : program.Fails host d start memory input fs)
    (hg : program.Fails host d' start memory input gs) : gs = fs := by
  obtain ⟨v, log, memory', hy, rfl⟩ := hf
  obtain ⟨v', log', memory'', hy', rfl⟩ := hg
  obtain ⟨rfl, rfl, -⟩ := hy.unique hy'
  rfl

section Whole

variable {program : Program} {host : Host σ α ε} {d : Nat} {start : RuleId} {memory memory' : σ}
  {input : String} {v : Verdict α ε} {log : List (Event α)}

/-- Unless the initializer ends the parse, the start rule is derived, and all failures are its. -/
theorem Yields.exists_derives (h : Yields program host d start memory input v log memory')
    (hv : v.GoesOn) : ∃ memory₁ log', Derives program.rules host d (.ruleRef start)
      (.ofText input) [] memory₁ v log' memory' ∧ Event.failuresOf log' = Event.failuresOf log := by
  cases h with
  | plain hi hd => exact ⟨_, _, hd, rfl⟩
  | prepared hi hp hd => exact ⟨_, _, hd, rfl⟩
  | refused hi hp => exact False.elim hv

/-- Whatever is derived and goes on, its failures are told by what is noted of them. -/
theorem Yields.exists_reported {grammar : Grammar} {options : Options}
    (hp : grammar.Denotes options program)
    (h : Yields program host d start memory input v log memory') (hv : v.GoesOn) :
    ∃ expected found span, (Record.ofFailures input
        (Event.failuresOf log ++ v.missed program)).mismatch program =
          .mismatch expected found span ∧
      Failures.Reported program input (Event.failuresOf log ++ v.missed program) expected found
        span := by
  obtain ⟨memory₁, log', hd, hlog⟩ := h.exists_derives hv
  rw [← hlog]
  refine Record.exists_reported program hd.missed_reach ?_
  refine List.forall_mem_append.mpr ⟨?_, fun f hf => ?_⟩
  · cases hd with
    | ruleRef hr body =>
      have hrules (id : RuleId) (found : CompiledRule) (hr : program.rules[id]? = some found) :
          ∃ e : Expr, e.Denotes grammar.ruleIndex? (options.optimize == .speed)
            program.expectations found.node :=
        let ⟨rule, _, he⟩ := hp.exists_source hr
        ⟨rule.expr, he⟩
      obtain ⟨e, he⟩ := hrules _ _ hr
      intro f hf
      rw [Event.failuresOf, Event.failuresOf, Event.failures, List.append_nil] at hf
      exact body.failures_known hrules he f hf
  · cases v with
    | matched value stop bound =>
      cases List.mem_singleton.mp hf
      exact ⟨.endOfInput, hp.endExpectation⟩
    | failed => cases hf
    | aborted e => cases hf

/-- Unless it is ended, a run that keeps no results is derived, and so is its answer, be it of the
whole input or of its beginning. -/
theorem Program.exists_answer {how : ParseOptions} (hu : program.cached = false)
    (hclosed : program.Closed) (hs : program.findStart how.startRule = .ok start)
    (hfound : ∃ rule, program.rules[start]? = some rule)
    (hgo : ∀ e, ¬ program.Aborts host memory input how e) :
    ∃ v log memory', Yields program host how.maxDepth start memory input v log memory' ∧ v.GoesOn ∧
      ∀ allowRest, (program.parse host memory input { how with allowRest := allowRest }).outcome =
        v.answer program allowRest input log := by
  have hlimit (limit offset : Nat) : (program.parse host memory input how).outcome ≠
      .error (.nestingLimit limit offset) := by
    intro he
    rcases hr : program.runFrom host how.maxDepth start (.initial input memory) with ⟨o, s⟩
    rw [parse_eq hs hr] at he
    exact hgo _ ⟨start, s, hs, aborted_of_answer he ▸ hr⟩
  obtain ⟨v, log, memory', hy⟩ := exists_yields hu hclosed hs hfound memory hlimit
  have hrun (allowRest : Bool) := runFrom_of_yields host.alike_eq (fun _ => rfl)
    (fun ht => absurd (hu.symm.trans ht) nofun) allowRest (Nat.le_refl how.maxDepth) hy
  refine ⟨v, log, memory', hy, ?_, fun allowRest => ?_⟩
  · obtain ⟨s, he, -⟩ := hrun true
    cases v with
    | matched value stop bound => trivial
    | failed => trivial
    | aborted e => exact hgo e ⟨start, s, hs, he⟩
  · obtain ⟨s, he, ha, -⟩ := hrun allowRest
    rw [hu, Event.unrepeatedAll_false] at ha
    have hs' : program.findStart { how with allowRest := allowRest }.startRule = .ok start := hs
    rw [parse_eq hs' he]
    exact ha

end Whole

/-- The error of a parse that keeps no results and is not ended by its host or by the limit of
nested rules tells the failures of the parse. Where the beginning of an input matches but not the
whole, it tells those of the whole, and its place is not before the end of the match. -/
theorem Grammar.reports_exactly {grammar : Grammar} {passes : Passes} {options : Options}
    {program : Program} (h : grammar.Compiles passes options program) (hu : options.cache = false)
    (host : Host σ α ε) (memory : σ) (input : String) (how : ParseOptions) {start : RuleId}
    (hs : program.findStart how.startRule = .ok start) :
    (∀ e, (program.parse host memory input how).outcome = .error e →
      (∀ e', ¬ program.Aborts host memory input how e') →
      ∃ fs expected found span, program.Fails host how.maxDepth start memory input fs ∧
        e = .refused (.mismatch expected found span) ∧
        fs.Reported program input expected found span) ∧
    ∀ value stop, (program.parse host memory input { how with allowRest := true }).outcome =
        .ok (value, stop) → stop < input.utf8ByteSize →
      ∃ fs expected found span, program.Fails host how.maxDepth start memory input fs ∧
        (program.parse host memory input { how with allowRest := false }).outcome =
          .error (.refused (.mismatch expected found span)) ∧
        fs.Reported program input expected found span ∧ stop ≤ span.start.offset := by
  obtain ⟨left, notes, -, ha⟩ := compiles_inv h
  have hp := denotes_of_assemble ha
  have hb := becomes_of_assemble ha
  have hderived (hgo : ∀ e, ¬ program.Aborts host memory input how e) :=
    Program.exists_answer (hb.cached.trans hu) hb.closed hs (hb.exists_start hs) hgo
  refine ⟨fun e he hgo => ?_, fun value stop hok hlt => ?_⟩
  · obtain ⟨v, log, memory', hy, hv, hanswer⟩ := hderived hgo
    obtain ⟨expected, found, span, hm, hreported⟩ := hy.exists_reported hp hv
    have hv' := (hanswer how.allowRest).symm.trans he
    have hrefused := hv'.symm.trans (Verdict.answer_eq_refused hv hv' log)
    rw [hm] at hrefused
    exact ⟨_, expected, found, span, ⟨v, log, memory', hy, rfl⟩, Except.error.inj hrefused,
      hreported⟩
  · have hgo (e : ParseError ε) (ha : program.Aborts host memory input how e) : False := by
      have ha' : program.Aborts host memory input { how with allowRest := true } e := ha
      cases hok.symm.trans (Program.outcome_of_aborts ha')
    obtain ⟨v, log, memory', hy, hv, hanswer⟩ := hderived hgo
    obtain ⟨expected, found, span, hm, hreported⟩ := hy.exists_reported hp hv
    have hv' := (hanswer true).symm.trans hok
    cases v with
    | matched value' stop' bound =>
      cases hv'
      obtain ⟨memory₁, log', hd, -⟩ := hy.exists_derives hv
      have hrest : stop'.atEnd = false := Cursor.atEnd_eq_false hd.reaches hlt
      have hfails : Verdict.answer program false input log
          (.matched value stop' bound : Verdict α ε) =
            .error (.refused (.mismatch expected found span)) := by
        rw [← hm, Verdict.answer, hrest, Bool.or_false, if_neg Bool.false_ne_true]
        rfl
      exact ⟨_, expected, found, span, ⟨_, log, memory', hy, rfl⟩, (hanswer false).trans hfails,
        hreported, hreported.furthest _ (List.mem_append_right _ List.mem_cons_self)⟩
    | failed => cases hv'
    | aborted e => exact False.elim hv

/-- Behind the lookahead, `b` is expected in silence first and then aloud; and behind `abd`, the end
of the input. -/
theorem Grammar.reports_exactly_peek :
    peekGrammar.Compiles .standard { cache := false } (peekParser false) ∧
    (peekParser false).findStart none = .ok 0 ∧
    (∃ fs, (peekParser false).Fails (Host.refusing : Host Unit Unit) 512 0 () "ax" fs ∧
      Failures.Reported (peekParser false) "ax" fs [.literal ⟨"b", false⟩] (some "x")
        ⟨⟨1, 1, 2⟩, ⟨2, 1, 3⟩⟩) ∧
    ∃ fs expected found span,
      (peekParser false).Fails (Host.refusing : Host Unit Unit) 512 0 () "abdx" fs ∧
      ((peekParser false).parse (Host.refusing : Host Unit Unit) () "abdx" {}).outcome =
        .error (.refused (.mismatch expected found span)) ∧
      Failures.Reported (peekParser false) "abdx" fs expected found span ∧
      3 ≤ span.start.offset := by
  have hs : (peekParser false).findStart none = .ok 0 := by decide +kernel
  have hfailed : (((peekParser false).parse (Host.refusing : Host Unit Unit) () "ax" {}).outcome.map
      fun answer => answer.2) = .error (.refused
        (.mismatch [.literal ⟨"b", false⟩] (some "x") ⟨⟨1, 1, 2⟩, ⟨2, 1, 3⟩⟩)) := by decide +kernel
  have hmatched : (((peekParser false).parse (Host.refusing : Host Unit Unit) () "abdx"
      { allowRest := true }).outcome.map fun answer => answer.2) = .ok 3 := by decide +kernel
  obtain ⟨⟨value, stop⟩, hok, rfl⟩ := map_eq_ok hmatched
  have hgo (e : ParseError) :
      ¬ (peekParser false).Aborts (Host.refusing : Host Unit Unit) () "ax" {} e := by
    rintro ⟨start, s, hs', hr⟩
    cases hs.symm.trans hs'
    have hgoes : (match ((peekParser false).runFrom (Host.refusing : Host Unit Unit) 512 0
        (.initial "ax" ())).1 with
      | .aborted _ => true
      | _ => false) = false := by decide +kernel
    have hended : ((peekParser false).runFrom (Host.refusing : Host Unit Unit) 512 0
      (.initial "ax" ())).1 = .aborted e := congrArg Prod.fst hr
    rw [hended] at hgoes
    cases hgoes
  obtain ⟨fs, expected, found, span, hfails, he, hreported⟩ :=
    (reports_exactly (compiles_peekParser false) rfl (Host.refusing : Host Unit Unit) () "ax" {}
      hs).1 _ (map_eq_error hfailed) hgo
  cases he
  exact ⟨compiles_peekParser false, hs, ⟨fs, hfails, hreported⟩,
    (reports_exactly (compiles_peekParser false) rfl (Host.refusing : Host Unit Unit) () "abdx" {}
      hs).2 value _ hok (by decide +kernel)⟩

end Peg
