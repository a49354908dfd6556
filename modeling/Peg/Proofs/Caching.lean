import Peg.Proofs.Refinement

/-! Keeping the results of rules does not change what is matched, as long as the host does not
either: what is derived without keeping anything is what happens with it, and comes to the same. -/
namespace Peg

variable {σ α ε : Type}

/-- The answers of blocks depend on nothing but the block and what it sees. -/
structure Host.Stateless (host : Host σ α ε) : Prop where
  action : ∀ code context m n, (host.action code context m).1 = (host.action code context n).1
  predicate : ∀ code context m n,
    (host.predicate code context m).1 = (host.predicate code context n).1

theorem Host.Stateless.alike {host : Host σ α ε} (h : host.Stateless) :
    host.Alike fun _ _ => True :=
  ⟨fun code context m n _ => ⟨h.action code context m n, trivial⟩,
    fun code context m n _ => ⟨h.predicate code context m n, trivial⟩⟩

/-- What is derived does not depend on whether results are kept. -/
theorem Yields.cached {program : Program} {host : Host σ α ε} {d : Nat} {start : RuleId}
    {memory memory' : σ} {input : String} {v : Verdict α ε} {log : List (Event α)}
    (h : Yields program host d start memory input v log memory') (cached : Bool) :
    Yields { program with cached := cached } host d start memory input v log memory' := by
  cases h with
  | plain hi hd => exact .plain hi hd
  | prepared hi hp hd => exact .prepared hi hp hd
  | refused hi hp => exact .refused hi hp

namespace Program

/-- The parse of the input ends before the start rule has matched or failed. -/
def Aborts (program : Program) (host : Host σ α ε) (memory : σ) (input : String)
    (how : ParseOptions) (e : ParseError ε) : Prop :=
  ∃ start s, program.findStart how.startRule = .ok start ∧
    program.runFrom host how.maxDepth start (.initial input memory) = (.aborted e, s)

variable {program : Program} {host : Host σ α ε} {memory : σ} {input : String} {how : ParseOptions}

theorem outcome_of_aborts {e : ParseError ε} (h : program.Aborts host memory input how e) :
    (program.parse host memory input how).outcome = .error e := by
  obtain ⟨start, s, hs, hr⟩ := h
  rw [parse_eq hs hr]
  rfl

/-- Both with and without keeping results, the run comes to what is derived. -/
theorem runs_of_yields (hl : host.Stateless) {start : RuleId} {memory' : σ} {v : Verdict α ε}
    {log : List (Event α)}
    (h : Yields program host how.maxDepth start memory input v log memory') :
    ∃ s : State σ α,
      program.runFrom host how.maxDepth start (.initial input memory) = (v.outcome, s) ∧
      program.answer how.allowRest v.outcome s = v.answer program how.allowRest input
        (Event.unrepeatedAll program.cached [] log).1 := by
  obtain ⟨s, he, ha, -, -⟩ := runFrom_of_yields hl.alike (fun _ => trivial)
    (fun _ _ _ => trivial) how.allowRest (Nat.le_refl how.maxDepth) h
  exact ⟨s, he, ha⟩

end Program

/-- Which match is found does not depend on the failures that were noted. -/
theorem Verdict.answer_eq_ok_iff {program : Program} {allowRest : Bool} {input : String}
    {log : List (Event α)} {v : Verdict α ε} {value : Value α} {stop : Nat} :
    v.answer program allowRest input log = .ok (value, stop) ↔
      ∃ c bound, v = .matched value c bound ∧ (allowRest || c.atEnd) = true ∧ c.offset = stop := by
  cases v with
  | matched found c bound =>
    rw [answer]
    split
    · rename_i he
      constructor
      · intro h
        cases h
        exact ⟨c, bound, rfl, he, rfl⟩
      · rintro ⟨c, bound, hv, -, rfl⟩
        cases hv
        rfl
    · rename_i he
      constructor
      · intro h
        cases h
      · rintro ⟨c, bound, hv, hc, -⟩
        cases hv
        exact False.elim (he hc)
  | failed =>
    constructor
    · intro h
      cases h
    · rintro ⟨c, bound, hv, -⟩
      cases hv
  | aborted e =>
    constructor
    · intro h
      cases h
    · rintro ⟨c, bound, hv, -⟩
      cases hv

/-- A parse ends early if its run does. -/
theorem Program.aborts_iff_of_runFrom {program : Program} {host : Host σ α ε} {memory : σ}
    {input : String} {how : ParseOptions} {start : RuleId}
    (hs : program.findStart how.startRule = .ok start) {o : Outcome ε (Value α)} {s : State σ α}
    (hr : program.runFrom host how.maxDepth start (.initial input memory) = (o, s))
    (e : ParseError ε) : program.Aborts host memory input how e ↔ o = .aborted e := by
  constructor
  · rintro ⟨start', s', hs', hr'⟩
    cases hs.symm.trans hs'
    exact congrArg Prod.fst (hr.symm.trans hr')
  · rintro rfl
    exact ⟨start, s, hs, hr⟩

/-- A run that comes to a verdict ends the parse if the verdict does. -/
theorem Program.aborts_iff {program : Program} {host : Host σ α ε} {memory : σ} {input : String}
    {how : ParseOptions} {start : RuleId} (hs : program.findStart how.startRule = .ok start)
    {v : Verdict α ε} {s : State σ α}
    (he : program.runFrom host how.maxDepth start (.initial input memory) = (v.outcome, s))
    (e : ParseError ε) : program.Aborts host memory input how e ↔ v = .aborted e := by
  refine (aborts_iff_of_runFrom hs he e).trans ⟨fun ho => ?_, fun hv => hv ▸ rfl⟩
  cases v with
  | matched value stop bound => cases ho
  | failed => cases ho
  | aborted e' => cases ho; rfl

/-- Keeping the results of rules changes neither what is matched nor with which error of its own the
host ends the parse. -/
theorem Grammar.cache_keeps_matches {grammar : Grammar} {passes : Passes} {options : Options}
    {off on : Program} (hoff : grammar.Compiles passes { options with cache := false } off)
    (hon : grammar.Compiles passes { options with cache := true } on) {host : Host σ α ε}
    (hl : host.Stateless) (memory : σ) (input : String) (how : ParseOptions)
    (hlimit : ∀ limit offset, (off.parse host memory input how).outcome ≠
      .error (.nestingLimit limit offset)) :
    (∀ value stop, (off.parse host memory input how).outcome = .ok (value, stop) ↔
      (on.parse host memory input how).outcome = .ok (value, stop)) ∧
    (∀ e, off.Aborts host memory input how e ↔ on.Aborts host memory input how e) ∧
    ∀ e, off.Aborts host memory input how e →
      (off.parse host memory input how).outcome = .error e ∧
      (on.parse host memory input how).outcome = .error e := by
  obtain ⟨left, -, hb⟩ := Grammar.becomes_of_compiles hoff
  obtain ⟨hcached, rfl⟩ := Grammar.compiles_cache hoff hon
  have hfind : ({ off with cached := true } : Program).findStart how.startRule =
      off.findStart how.startRule := rfl
  suffices h : (∀ value stop, (off.parse host memory input how).outcome = .ok (value, stop) ↔
      (({ off with cached := true } : Program).parse host memory input how).outcome =
        .ok (value, stop)) ∧
      ∀ e, off.Aborts host memory input how e ↔
        ({ off with cached := true } : Program).Aborts host memory input how e from
    ⟨h.1, h.2, fun e he =>
      ⟨Program.outcome_of_aborts he, Program.outcome_of_aborts ((h.2 e).mp he)⟩⟩
  cases hs : off.findStart how.startRule with
  | error e =>
    have hf := hfind.trans hs
    refine ⟨fun value stop => ?_, fun e' => ?_⟩
    · simp only [Program.parse, hs, hf]
    · constructor
      · rintro ⟨start, s, hs', -⟩
        cases hs.symm.trans hs'
      · rintro ⟨start, s, hs', -⟩
        cases hf.symm.trans hs'
  | ok start =>
    have hf := hfind.trans hs
    obtain ⟨name, hn⟩ := hb.startRules start (Program.mem_startRules_of_findStart hs)
    obtain ⟨found, hf', -⟩ := hb.exists_rule hn
    obtain ⟨v, log, memory', hy⟩ := Program.exists_yields hcached hb.closed hs ⟨found, hf'⟩ memory
      hlimit
    obtain ⟨s, he, ha⟩ := Program.runs_of_yields hl hy
    obtain ⟨s', he', ha'⟩ := Program.runs_of_yields hl (hy.cached true)
    refine ⟨fun value stop => ?_, fun e => ?_⟩
    · rw [Program.parse_eq hs he, Program.parse_eq hf he', ha, ha', Verdict.answer_eq_ok_iff,
        Verdict.answer_eq_ok_iff]
    · rw [Program.aborts_iff hs he, Program.aborts_iff hf he']

theorem Grammar.cache_keeps_matches_peek :
    peekGrammar.Compiles .standard { cache := false } (peekParser false) ∧
    peekGrammar.Compiles .standard { cache := true } (peekParser true) ∧
    (Host.refusing : Host Unit Unit).Stateless ∧
    ∃ value, ((peekParser false).parse (Host.refusing : Host Unit Unit) () "abd" {}).outcome =
        .ok (value, 3) ∧
      ((peekParser true).parse (Host.refusing : Host Unit Unit) () "abd" {}).outcome =
        .ok (value, 3) := by
  have hl : (Host.refusing : Host Unit Unit).Stateless := ⟨fun _ _ _ _ => rfl, fun _ _ _ _ => rfl⟩
  have ho : (((peekParser false).parse (Host.refusing : Host Unit Unit) () "abd" {}).outcome.map
      fun answer => answer.2) = .ok 3 := by decide +kernel
  obtain ⟨⟨value, stop⟩, ha, rfl⟩ := map_eq_ok ho
  have hiff := (@cache_keeps_matches Unit Unit String peekGrammar .standard {} _ _
    (compiles_peekParser false) (compiles_peekParser true) _ hl () "abd" {}
    fun limit offset h => nomatch ha.symm.trans h).1
  exact ⟨compiles_peekParser false, compiles_peekParser true, hl, value, ha, (hiff value 3).mp ha⟩

end Peg
