import Peg.Proofs.Reports

/-! The report of a parse that keeps results. It leaves out the failures of rules that are not run
again, which makes a difference if such a rule was run in silence the first time. -/
namespace Peg

variable {σ α ε : Type}

namespace Verdict

variable {v : Verdict α ε}

theorem goesOn_closed (h : v.GoesOn) : v.closed.GoesOn := by
  cases v <;> exact h

theorem goesOn_labeled {label : String} (h : v.GoesOn) : (v.labeled label).GoesOn := by
  cases v <;> exact h

theorem goesOn_asText {c : Cursor} (h : v.GoesOn) : (v.asText c).GoesOn := by
  cases v <;> exact h

theorem goesOn_orNothing {c : Cursor} (h : v.GoesOn) : (v.orNothing c).GoesOn := by
  cases v <;> exact h

theorem goesOn_seen {negated : Bool} {c : Cursor} (h : v.GoesOn) : (v.seen negated c).GoesOn := by
  cases v <;> cases negated <;> exact h

theorem goesOn_behind {value : Value α} {bound : Scope α} (h : v.GoesOn) :
    (v.behind value bound).GoesOn := by
  cases v <;> exact h

theorem goesOn_nonempty (h : v.GoesOn) : v.nonempty.GoesOn := by
  unfold nonempty
  split
  · trivial
  · exact h

end Verdict

namespace Event

mutual

/-- The rules that are invoked outside silence, with the offsets. -/
def told : Event α → List (RuleId × Nat)
  | called _ | missed .. | muted _ => []
  | invoked rule place log => (rule, place.offset) :: toldOf log

def toldOf : List (Event α) → List (RuleId × Nat)
  | [] => []
  | event :: log => event.told ++ toldOf log

end

mutual

/-- No rule is invoked outside silence at a place where it has come to a result in silence only.
`seen` has the places where rules have come to results, and `told` those where they have done so
outside silence. -/
def Steady (seen told : List (RuleId × Nat)) : Event α → Prop
  | called _ | missed .. | muted _ => True
  | invoked rule place log =>
    ((rule, place.offset) ∈ seen → (rule, place.offset) ∈ told) ∧
      ((rule, place.offset) ∉ seen → SteadyAll seen told log)

def SteadyAll (seen told : List (RuleId × Nat)) : List (Event α) → Prop
  | [] => True
  | event :: log => event.Steady seen told ∧
    SteadyAll (event.unrepeated true seen).2 (told ++ toldOf (event.unrepeated true seen).1) log

end

theorem toldOf_append (log log' : List (Event α)) :
    toldOf (log ++ log') = toldOf log ++ toldOf log' := by
  induction log with
  | nil => rfl
  | cons event log ih => rw [List.cons_append, toldOf, toldOf, ih, List.append_assoc]

/-- What is not repeated has happened. -/
theorem failuresOf_unrepeatedAll_subset (kept : Bool) (seen : List (RuleId × Nat))
    (log : List (Event α)) : failuresOf (unrepeatedAll kept seen log).1 ⊆ failuresOf log := by
  induction log using inductLog generalizing seen with
  | nil => exact List.Subset.refl _
  | called call log ih =>
    rw [unrepeatedAll, unrepeated, failuresOf_append]
    exact ih seen
  | missed expectation place log ih =>
    rw [unrepeatedAll, unrepeated, failuresOf_append]
    exact List.cons_subset_cons _ (ih seen)
  | muted inner log _ ih =>
    rw [unrepeatedAll, unrepeated, failuresOf_append]
    exact ih _
  | invoked rule place inner log ihi ih =>
    rw [unrepeatedAll, unrepeated, failuresOf, failures]
    split
    · exact List.Subset.trans (ih seen) (List.subset_append_right _ _)
    · rw [failuresOf_append, failuresOf, failures, failuresOf, List.append_nil]
      exact List.append_subset.mpr ⟨List.subset_append_of_subset_left _ (ihi seen),
        List.subset_append_of_subset_right _ (ih _)⟩

mutual

def Derived (rules : Array CompiledRule) (host : Host σ α ε) (text : Cursor) : Event α → Prop
  | called _ | missed .. | muted _ => True
  | invoked id place log =>
    (text.Reaches place ∧ ∃ rule d h v h', rules[id]? = some rule ∧
      Derives rules host d rule.node place [] h v log h') ∧ DerivedAll rules host text log

def DerivedAll (rules : Array CompiledRule) (host : Host σ α ε) (text : Cursor) :
    List (Event α) → Prop
  | [] => True
  | event :: log => event.Derived rules host text ∧ DerivedAll rules host text log

end

theorem forall_failuresOf_append {log log' : List (Event α)}
    {P : ExpectationId × Cursor → Prop} :
    (∀ f ∈ failuresOf (log ++ log'), P f) ↔
      (∀ f ∈ failuresOf log, P f) ∧ ∀ f ∈ failuresOf log', P f := by
  rw [failuresOf_append]
  exact List.forall_mem_append

theorem derivedAll_append {rules : Array CompiledRule} {host : Host σ α ε} {text : Cursor}
    {log log' : List (Event α)} (h : DerivedAll rules host text log)
    (h' : DerivedAll rules host text log') : DerivedAll rules host text (log ++ log') := by
  induction log with
  | nil => exact h'
  | cons event log ih => exact ⟨h.1, ih h.2⟩

end Event

namespace Derives

variable {rules : Array CompiledRule} {host : Host σ α ε} {d : Nat} {node : Node} {c : Cursor}
  {env : Scope α} {h h' : σ} {v : Verdict α ε} {log : List (Event α)}

theorem derivedAll {text : Cursor} (hd : Derives rules host d node c env h v log h')
    (hc : text.Reaches c) : Event.DerivedAll rules host text log := by
  induction hd with
  | literal | charClass | any | sequence_nil | choice_nil => trivial
  | literal_missed | charClass_missed | any_missed | predicate | predicate_error =>
    exact ⟨trivial, trivial⟩
  | ruleRef hr body ih => exact ⟨⟨⟨hc, _, _, _, _, _, hr, body⟩, ih hc⟩, trivial⟩
  | sequence_cons first rest ihf ihr =>
    exact Event.derivedAll_append (ihf hc) (ihr (Cursor.reaches_trans hc first.reaches))
  | zeroOrMore_round inner hs rest ihi ihr =>
    exact Event.derivedAll_append (ihi hc) (ihr (Cursor.reaches_trans hc inner.reaches))
  | choice_cons first rest ihf ihr => exact Event.derivedAll_append (ihf hc) (ihr hc)
  | named_failed => exact ⟨trivial, trivial, trivial⟩
  | named | followedBy | notFollowedBy => exact ⟨trivial, trivial⟩
  | action inner ha ih | action_error inner ha ih =>
    exact Event.derivedAll_append (ih hc) ⟨trivial, trivial⟩
  | sequence_failed first ih | sequence_aborted first ih | choice_matched first ih
  | choice_aborted first ih | labeled first ih | action_failed first ih | action_aborted first ih
  | text first ih | optional first ih | zeroOrMore_done first ih | zeroOrMore_empty first ih
  | zeroOrMore_aborted first ih | oneOrMore first ih | group first ih => exact ih hc

/-- Nothing is expected before the place where a node is tried. -/
theorem failures_reach (hd : Derives rules host d node c env h v log h') :
    ∀ f ∈ Event.failuresOf log, c.Reaches f.2 := by
  induction hd with
  | literal | charClass | any | sequence_nil | choice_nil | named | followedBy | notFollowedBy
  | predicate | predicate_error =>
    intro f hf
    cases hf
  | literal_missed | charClass_missed | any_missed | named_failed =>
    intro f hf
    cases List.mem_singleton.mp hf
    exact Cursor.reaches_refl _
  | ruleRef hr body ih =>
    intro f hf
    rw [Event.failuresOf, Event.failuresOf, Event.failures, List.append_nil] at hf
    exact ih f hf
  | sequence_cons first rest ihf ihr =>
    exact Event.forall_failuresOf_append.mpr
      ⟨ihf, fun f hf => Cursor.reaches_trans first.reaches (ihr f hf)⟩
  | zeroOrMore_round inner hs rest ihi ihr =>
    exact Event.forall_failuresOf_append.mpr
      ⟨ihi, fun f hf => Cursor.reaches_trans inner.reaches (ihr f hf)⟩
  | choice_cons first rest ihf ihr => exact Event.forall_failuresOf_append.mpr ⟨ihf, ihr⟩
  | action inner ha ih | action_error inner ha ih =>
    exact Event.forall_failuresOf_append.mpr ⟨ih, fun f hf => absurd hf List.not_mem_nil⟩
  | sequence_failed first ih | sequence_aborted first ih | choice_matched first ih
  | choice_aborted first ih | labeled first ih | action_failed first ih | action_aborted first ih
  | text first ih | optional first ih | zeroOrMore_done first ih | zeroOrMore_empty first ih
  | zeroOrMore_aborted first ih | oneOrMore first ih | group first ih => exact ih

/-- Only code ends a parse. -/
theorem goesOn (hrules : ∀ (id : RuleId) (rule : CompiledRule), rules[id]? = some rule →
    rule.node.codeFree = true) (hd : Derives rules host d node c env h v log h')
    (hn : node.codeFree = true) : v.GoesOn := by
  induction hd with
  | literal | literal_missed | charClass | charClass_missed | any | any_missed | sequence_nil
  | sequence_failed | choice_nil | choice_matched | named_failed | zeroOrMore_done
  | zeroOrMore_empty => trivial
  | predicate | predicate_error | action | action_error | action_failed | action_aborted => cases hn
  | ruleRef hr body ih => exact Verdict.goesOn_closed (ih (hrules _ _ hr))
  | sequence_cons first rest ihf ihr =>
    exact Verdict.goesOn_behind (ihr ((Bool.and_eq_true _ _).mp hn).2)
  | choice_cons first rest ihf ihr => exact ihr ((Bool.and_eq_true _ _).mp hn).2
  | sequence_aborted first ih | choice_aborted first ih =>
    exact ih ((Bool.and_eq_true _ _).mp hn).1
  | zeroOrMore_aborted inner ih => exact ih hn
  | zeroOrMore_round inner hs rest ihi ihr => exact Verdict.goesOn_behind (ihr hn)
  | labeled inner ih => exact Verdict.goesOn_labeled (ih hn)
  | named inner hv ih | group inner ih => exact Verdict.goesOn_closed (ih hn)
  | text inner ih => exact Verdict.goesOn_asText (ih hn)
  | optional inner ih => exact Verdict.goesOn_orNothing (ih hn)
  | followedBy inner ih | notFollowedBy inner ih => exact Verdict.goesOn_seen (ih hn)
  | oneOrMore rounds ih => exact Verdict.goesOn_nonempty (ih hn)

end Derives

namespace Event

variable {rules : Array CompiledRule} {host : Host σ α ε} {text : Cursor}

/-- The failures of the rules in `told` are among those before. -/
def Covers (rules : Array CompiledRule) (host : Host σ α ε) (text : Cursor)
    (told : List (RuleId × Nat)) (before : Failures) : Prop :=
  ∀ (id : RuleId) (place : Cursor) (inner : List (Event α)), (id, place.offset) ∈ told →
    (text.Reaches place ∧ ∃ rule d h v h', rules[id]? = some rule ∧
      Derives rules host d rule.node place [] h v inner h') → failuresOf inner ⊆ before

theorem Covers.append {told : List (RuleId × Nat)} {before : Failures}
    (h : Covers rules host text told before) (fs : Failures) :
    Covers rules host text told (before ++ fs) := fun id place inner hm hd =>
  List.subset_append_of_subset_left _ (h id place inner hm hd)

/-- Once a rule was run, it is one of those whose failures have been told: at its place, no others
are derived for it. -/
theorem Covers.invoked (hl : host.Alike fun _ _ => True) {told : List (RuleId × Nat)}
    {before : Failures} {id : RuleId} {place : Cursor} {inner shown : List (Event α)}
    (hc : Covers rules host text (told ++ toldOf shown) (before ++ failuresOf shown))
    (hrule : text.Reaches place ∧ ∃ rule d h v h', rules[id]? = some rule ∧
      Derives rules host d rule.node place [] h v inner h')
    (hd : Drops before (failuresOf inner) (failuresOf shown)) :
    Covers rules host text (told ++ toldOf [Event.invoked id place shown])
      (before ++ failuresOf shown) := by
  intro id' place' inner' hm hrule'
  rw [toldOf, toldOf, Event.told, List.append_nil] at hm
  rcases List.mem_append.mp hm with hm | hm
  · exact hc id' place' inner' (List.mem_append_left _ hm) hrule'
  rcases List.mem_cons.mp hm with he | hm
  · obtain ⟨rfl, ho⟩ := Prod.mk.inj he
    obtain ⟨hplace, rule, d, h, v, h', hr, hdr⟩ := hrule
    obtain ⟨hplace', rule', d', h₁, v', h₁', hr', hdr'⟩ := hrule'
    cases Cursor.eq_of_offset_eq hplace' hplace ho
    cases hr.symm.trans hr'
    obtain ⟨-, rfl, -⟩ := hdr.unique hl trivial hdr'
    exact hd.subset_append
  · exact hc id' place' inner' (List.mem_append_right _ hm) hrule'

/-- Where no rule has been run in silence only, leaving out what is repeated leaves out failures
that have been told. -/
theorem drops_unrepeated (hl : host.Alike fun _ _ => True) (log : List (Event α))
    {seen told : List (RuleId × Nat)} {before : Failures}
    (hcovers : Covers rules host text told before) (hsteady : SteadyAll seen told log)
    (hderived : DerivedAll rules host text log) :
    Drops before (failuresOf log) (failuresOf (unrepeatedAll true seen log).1) ∧
      Covers rules host text (told ++ toldOf (unrepeatedAll true seen log).1)
        (before ++ failuresOf (unrepeatedAll true seen log).1) := by
  induction log using inductLog generalizing seen told before with
  | nil =>
    refine ⟨.nil before, ?_⟩
    rw [unrepeatedAll, toldOf, failuresOf, List.append_nil, List.append_nil]
    exact hcovers
  | called call log ih =>
    have hs := hsteady.2
    rw [unrepeated, toldOf, toldOf, Event.told, List.append_nil, List.append_nil] at hs
    exact ih hcovers hs hderived.2
  | missed expectation place log ih =>
    have hs := hsteady.2
    rw [unrepeated, toldOf, toldOf, Event.told, List.append_nil, List.append_nil] at hs
    obtain ⟨hd, hc⟩ := ih (hcovers.append [(expectation, place)]) hs hderived.2
    refine ⟨.keep hd, ?_⟩
    rw [List.append_assoc] at hc
    exact hc
  | muted inner log _ ih =>
    have hs := hsteady.2
    rw [unrepeated, toldOf, toldOf, Event.told, List.append_nil, List.append_nil] at hs
    exact ih hcovers hs hderived.2
  | invoked id place inner log ihi ih =>
    obtain ⟨hfirst, hrest⟩ := hsteady
    obtain ⟨⟨hrule, hinner⟩, hlog⟩ := hderived
    rw [Steady] at hfirst
    rw [unrepeated] at hrest
    rw [unrepeatedAll, unrepeated, failuresOf, failures]
    by_cases hm : (id, place.offset) ∈ seen
    · have hfirst := hfirst.1 hm
      rw [if_pos hm] at hrest ⊢
      rw [toldOf, List.append_nil] at hrest
      have hd := Drops.of_subset (hcovers id place inner hfirst hrule)
      obtain ⟨hd', hc⟩ := ih hcovers hrest hlog
      rw [← List.append_nil before] at hd'
      exact ⟨hd.append hd', hc⟩
    · have hfirst := hfirst.2 hm
      rw [if_neg hm] at hrest ⊢
      obtain ⟨hd, hc⟩ := ihi hcovers hfirst hinner
      obtain ⟨hd', hc''⟩ := ih (hc.invoked hl hrule hd) hrest hlog
      rw [failuresOf_append, failuresOf, failures, failuresOf, List.append_nil, toldOf_append]
      rw [List.append_assoc, List.append_assoc] at hc''
      exact ⟨hd.append hd', hc''⟩

end Event

def Host.idle : Host σ α ε :=
  ⟨fun _ _ m => (.error (.message ""), m), fun _ _ m => (.error (.message ""), m),
    fun _ _ m => (.error (.message ""), m)⟩

theorem Host.stateless_idle : (Host.idle : Host σ α ε).Stateless :=
  ⟨fun _ _ _ _ => rfl, fun _ _ _ _ => rfl⟩

def Verdict.missed (program : Program) : Verdict α ε → Failures
  | matched _ stop _ => [(program.endExpectation, stop)]
  | failed => []
  | aborted _ => []

/-- An error that is no host's reports the failures on the way and, behind a match, the one of the
end of the input. -/
theorem Verdict.answer_eq_refused {program : Program} {allowRest : Bool} {input : String}
    {log : List (Event α)} {v : Verdict α ε} (hv : v.GoesOn) {e : ParseError ε}
    (h : v.answer program allowRest input log = .error e) (log' : List (Event α)) :
    v.answer program allowRest input log' = .error (.refused ((Record.ofFailures input
      (Event.failuresOf log' ++ v.missed program)).mismatch program)) := by
  cases v with
  | matched value stop bound =>
    rw [answer] at h ⊢
    split at h
    · cases h
    · rename_i he
      exact if_neg he
  | failed =>
    rw [missed, List.append_nil]
    rfl
  | aborted e' => exact False.elim hv

/-- No failure is noted before the place where a node is tried, that of the end included. -/
theorem Derives.missed_reach {program : Program} {host : Host σ α ε} {d : Nat} {node : Node}
    {c : Cursor} {env : Scope α} {h h' : σ} {v : Verdict α ε} {log : List (Event α)}
    (hd : Derives program.rules host d node c env h v log h') :
    ∀ f ∈ Event.failuresOf log ++ v.missed program, c.Reaches f.2 := by
  refine List.forall_mem_append.mpr ⟨hd.failures_reach, fun f hf => ?_⟩
  cases v with
  | matched value stop bound =>
    cases List.mem_singleton.mp hf
    exact hd.reaches
  | failed => cases hf
  | aborted e => cases hf

/-- Without code, a parse begins with the start rule. -/
theorem Yields.derives {program : Program} (hcode : program.CodeFree) {host : Host σ α ε} {d : Nat}
    {start : RuleId} {memory memory' : σ} {input : String} {v : Verdict α ε} {log : List (Event α)}
    (h : Yields program host d start memory input v log memory') :
    Derives program.rules host d (.ruleRef start) (.ofText input) [] memory v log memory' := by
  cases h with
  | plain hi hd => exact hd
  | prepared hi hp hd => cases hcode.initializer.symm.trans hi
  | refused hi hp => cases hcode.initializer.symm.trans hi

theorem Yields.swap_host {program : Program} (hcode : program.CodeFree) {host : Host σ α ε}
    (host' : Host σ α ε) {d : Nat} {start : RuleId} {memory memory' : σ} {input : String}
    {v : Verdict α ε} {log : List (Event α)}
    (h : Yields program host d start memory input v log memory') :
    Yields program host' d start memory input v log memory' :=
  .plain hcode.initializer ((h.derives hcode).swap_host hcode.rules host' rfl)

/-- Without code, a parse that keeps results does what is derived without those that are repeated,
whatever the host is like: one that answers nothing takes its place. -/
theorem Program.runFrom_cached {program : Program} (hcode : program.CodeFree) {host : Host σ α ε}
    {d : Nat} {start : RuleId} {memory memory' : σ} {input : String} {v : Verdict α ε}
    {log : List (Event α)} (h : Yields program host d start memory input v log memory')
    (allowRest : Bool) : ∃ s : State σ α,
      ({ program with cached := true } : Program).runFrom host d start (.initial input memory) =
        (v.outcome, s) ∧
      program.answer allowRest v.outcome s =
        v.answer program allowRest input (Event.unrepeatedAll true [] log).1 := by
  have hcode' : ({ program with cached := true } : Program).CodeFree :=
    ⟨hcode.initializer, hcode.rules⟩
  obtain ⟨s, he, ha, -, -⟩ := runFrom_of_yields Host.stateless_idle.alike (fun _ => trivial)
    (fun _ _ _ => trivial) allowRest (Nat.le_refl d) ((h.swap_host hcode Host.idle).cached true)
  rw [runFrom_swap_host hcode' host] at he
  exact ⟨s, he, ha⟩

/-- Without code, keeping results makes a parse without a match report the same error if and only
if what was expected at the furthest place, in the order in which it was first told, is the same
without what is not repeated. It is, in particular, where no rule is invoked outside silence at a
place where it has come to a result in silence only. -/
theorem Grammar.cache_keeps_error_iff {grammar : Grammar} (hcode : grammar.CodeFree)
    {passes : Passes} {options : Options} {off on : Program}
    (hoff : grammar.Compiles passes { options with cache := false } off)
    (hon : grammar.Compiles passes { options with cache := true } on) (host : Host σ α ε)
    (memory : σ)
    (input : String) (how : ParseOptions) {start : RuleId}
    (hs : off.findStart how.startRule = .ok start) {e : MatchError}
    (he : (off.parse host memory input how).outcome = .error (.refused e)) :
    ∃ v log memory' e', Yields off host how.maxDepth start memory input v log memory' ∧
      (on.parse host memory input how).outcome = .error (.refused e') ∧
      (e' = e ↔
        Failures.furthest (Event.failuresOf (Event.unrepeatedAll true [] log).1 ++ v.missed off) =
          Failures.furthest (Event.failuresOf log ++ v.missed off) ∧
        Failures.wanted off (Event.failuresOf (Event.unrepeatedAll true [] log).1 ++ v.missed off) =
          Failures.wanted off (Event.failuresOf log ++ v.missed off)) ∧
      (Event.SteadyAll [] [] log → e' = e) := by
  obtain ⟨left, hl, hb⟩ := Grammar.becomes_of_compiles hoff
  have hfree : off.CodeFree := hb.codeFree (Grammar.codeFree_of_leaves hl hcode)
  obtain ⟨hcached, rfl⟩ := Grammar.compiles_cache hoff hon
  obtain ⟨name, hn⟩ := hb.startRules start (Program.mem_startRules_of_findStart hs)
  obtain ⟨found, hf, -⟩ := hb.exists_rule hn
  have hlimit (limit offset : Nat) : (off.parse host memory input how).outcome ≠
      .error (.nestingLimit limit offset) := fun h => nomatch he.symm.trans h
  obtain ⟨v, log, memory', hy⟩ := Program.exists_yields hcached hb.closed hs ⟨found, hf⟩ memory
    hlimit
  have hd := hy.derives hfree
  obtain ⟨s, hr, ha, -, -⟩ := Program.runFrom_of_yields host.alike_eq (fun _ => rfl)
    (fun ht => absurd (hcached.symm.trans ht) nofun) how.allowRest (Nat.le_refl how.maxDepth) hy
  obtain ⟨s', hr', ha'⟩ := Program.runFrom_cached hfree hy how.allowRest
  rw [hcached, Event.unrepeatedAll_false] at ha
  rw [Program.parse_eq hs hr] at he
  have hrefused := ha.symm.trans he
  have hanswer := Verdict.answer_eq_refused (hd.goesOn hfree.rules rfl) hrefused
  cases hrefused.symm.trans (hanswer log)
  have hreach' : ∀ f ∈ Event.failuresOf (Event.unrepeatedAll true [] log).1 ++ v.missed off,
      (Cursor.ofText input).Reaches f.2 := by
    obtain ⟨hlog, hmissed⟩ := List.forall_mem_append.mp hd.missed_reach
    exact List.forall_mem_append.mpr
      ⟨fun f hf => hlog f (Event.failuresOf_unrepeatedAll_subset true [] log hf), hmissed⟩
  have hiff := Record.mismatch_eq_iff off hd.missed_reach hreach'
  have hfind : ({ off with cached := true } : Program).findStart how.startRule = .ok start := hs
  refine ⟨v, log, memory', _, hy, ?_, hiff, fun hsteady => hiff.mpr ?_⟩
  · rw [Program.parse_eq hfind hr']
    exact ha'.trans (hanswer (Event.unrepeatedAll true [] log).1)
  · -- Where every result that stands for a rule was told before, what is left out was too.
    have hcovers : Event.Covers off.rules (Host.idle : Host σ α ε) (.ofText input) [] [] :=
      fun _ _ _ hm _ => absurd hm List.not_mem_nil
    have hderived := (hd.swap_host hfree.rules Host.idle rfl).derivedAll (Cursor.reaches_refl _)
    have hdrops := (Event.drops_unrepeated Host.stateless_idle.alike log hcovers hsteady hderived).1
    exact Failures.report_eq_of_drops off (hdrops.append (.refl _ _))

/-- What is expected in silence only is not reported where a kept result stands for it: here the
error points to the second character without keeping results, and to the first one with it. -/
theorem Grammar.cache_changes_error :
    ¬ ∀ (grammar : Grammar) (off on : Program) (input : String) (e : MatchError),
      grammar.CodeFree → grammar.Compiles .standard { cache := false } off →
      grammar.Compiles .standard { cache := true } on →
      (off.parse (Host.refusing : Host Unit Unit) () input {}).outcome = .error (.refused e) →
      (on.parse (Host.refusing : Host Unit Unit) () input {}).outcome = .error (.refused e) := by
  intro h
  have hoff : (((peekParser false).parse (Host.refusing : Host Unit Unit) () "ax" {}).outcome.map
      fun answer => answer.2) = .error (.refused
        (.mismatch [.literal ⟨"b", false⟩] (some "x") ⟨⟨1, 1, 2⟩, ⟨2, 1, 3⟩⟩)) := by decide +kernel
  have hon : (((peekParser true).parse (Host.refusing : Host Unit Unit) () "ax" {}).outcome.map
      fun answer => answer.2) = .error (.refused
        (.mismatch [] (some "a") ⟨⟨0, 1, 1⟩, ⟨1, 1, 2⟩⟩)) := by decide +kernel
  have he := h peekGrammar (peekParser false) (peekParser true) "ax" _ codeFree_peekGrammar
    (compiles_peekParser false) (compiles_peekParser true) (map_eq_error hoff)
  cases he.symm.trans (map_eq_error hon)

theorem Grammar.cache_keeps_error_peek :
    peekGrammar.CodeFree ∧ (peekParser false).findStart none = .ok 0 ∧
    ∃ e, ((peekParser false).parse (Host.refusing : Host Unit Unit) () "ax" {}).outcome =
        .error (.refused e) ∧
      ∃ v log memory', Yields (peekParser false) (Host.refusing : Host Unit Unit) 512 0 () "ax" v
        log memory' ∧ ¬ Event.SteadyAll [] [] log := by
  have hs : (peekParser false).findStart none = .ok 0 := by decide +kernel
  have hoff : (((peekParser false).parse (Host.refusing : Host Unit Unit) () "ax" {}).outcome.map
      fun answer => answer.2) = .error (.refused
        (.mismatch [.literal ⟨"b", false⟩] (some "x") ⟨⟨1, 1, 2⟩, ⟨2, 1, 3⟩⟩)) := by decide +kernel
  have hon : (((peekParser true).parse (Host.refusing : Host Unit Unit) () "ax" {}).outcome.map
      fun answer => answer.2) = .error (.refused
        (.mismatch [] (some "a") ⟨⟨0, 1, 1⟩, ⟨1, 1, 2⟩⟩)) := by decide +kernel
  obtain ⟨v, log, memory', e', hy, ho, -, hsteady⟩ :=
    @cache_keeps_error_iff Unit Unit String peekGrammar codeFree_peekGrammar .standard {} _ _
      (compiles_peekParser false) (compiles_peekParser true) Host.refusing () "ax" {} 0 hs _ (map_eq_error hoff)
  refine ⟨codeFree_peekGrammar, hs, _, map_eq_error hoff, v, log, memory', hy, fun hl => ?_⟩
  cases hsteady hl
  cases ho.symm.trans (map_eq_error hon)

end Peg
