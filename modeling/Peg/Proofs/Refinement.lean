import Peg.Proofs.Compilation
import Peg.Proofs.Exhaustion

/-! Parses and derivations. A parse of a whole input comes to what is derived for its start rule,
and is the only thing that is; it comes to nothing else, unless it ends at the limit of nested
rules. -/
namespace Peg

variable {σ α ε : Type}

def Record.mismatch (program : Program) (r : Record) : MatchError :=
  let expected := r.expected.reverse.filterMap (program.expectations[·]?)
  .mismatch expected.eraseDups (r.furthest.peek.map Char.toString) r.furthest.charSpan

def Record.ofFailures (input : String) (failures : List (ExpectationId × Cursor)) : Record :=
  Record.noteAll ⟨.ofText input, []⟩ failures

/-- The answer that a parse of the input gives on a verdict, if these events led to it. -/
def Verdict.answer (program : Program) (allowRest : Bool) (input : String) (log : List (Event α)) :
    Verdict α ε → Except (ParseError ε) (Value α × Nat)
  | matched value stop _ =>
    if allowRest || stop.atEnd then .ok (value, stop.offset)
    else .error (.refused ((Record.ofFailures input
      (Event.failuresOf log ++ [(program.endExpectation, stop)])).mismatch program))
  | failed => .error (.refused ((Record.ofFailures input (Event.failuresOf log)).mismatch program))
  | aborted e => .error e

/-- What is derived for an input as a whole: the initializer is run, if there is one, then the start
rule is matched where the input begins. -/
inductive Yields (program : Program) (host : Host σ α ε) (d : Nat) (start : RuleId) (memory : σ)
    (input : String) : Verdict α ε → List (Event α) → σ → Prop where
  | plain {v log memory'} (hi : program.initializer = none)
      (hd : Derives program.rules host d (.ruleRef start) (.ofText input) [] memory v log memory') :
      Yields program host d start memory input v log memory'
  | prepared {code memory₁ v log memory'} (hi : program.initializer = some code)
      (hp : host.prepare code ⟨.ofText input, .ofText input, [], none⟩ memory = (.ok (), memory₁))
      (hd : Derives program.rules host d (.ruleRef start) (.ofText input) [] memory₁ v log
        memory') :
      Yields program host d start memory input v
        (.called ⟨.initializer, code, ⟨.ofText input, .ofText input, [], none⟩⟩ :: log) memory'
  | refused {code e memory'} (hi : program.initializer = some code)
      (hp : host.prepare code ⟨.ofText input, .ofText input, [], none⟩ memory =
        (.error e, memory')) :
      Yields program host d start memory input
        (.aborted (e.toParseError
          (⟨.ofText input, .ofText input, [], none⟩ : CodeContext α)))
        [.called ⟨.initializer, code, ⟨.ofText input, .ofText input, [], none⟩⟩] memory'

/-- Whatever is derived for an input is derived for it alone. -/
theorem Yields.unique {program : Program} {host : Host σ α ε} {d d₂ : Nat} {start : RuleId}
    {memory memory' memory₂ : σ} {input : String} {v v₂ : Verdict α ε} {log log₂ : List (Event α)}
    (h : Yields program host d start memory input v log memory')
    (h₂ : Yields program host d₂ start memory input v₂ log₂ memory₂) :
    v₂ = v ∧ log₂ = log ∧ memory₂ = memory' := by
  cases h with
  | plain hi hd =>
    cases h₂ with
    | plain hi₂ hd₂ =>
      obtain ⟨hv, hlog, hm⟩ := hd.unique host.alike_eq rfl hd₂
      exact ⟨hv, hlog, hm.symm⟩
    | prepared hi₂ hp₂ hd₂ => cases hi.symm.trans hi₂
    | refused hi₂ hp₂ => cases hi.symm.trans hi₂
  | prepared hi hp hd =>
    cases h₂ with
    | plain hi₂ hd₂ => cases hi.symm.trans hi₂
    | prepared hi₂ hp₂ hd₂ =>
      cases hi.symm.trans hi₂
      cases hp.symm.trans hp₂
      obtain ⟨rfl, rfl, hm⟩ := hd.unique host.alike_eq rfl hd₂
      exact ⟨rfl, rfl, hm.symm⟩
    | refused hi₂ hp₂ =>
      cases hi.symm.trans hi₂
      cases hp.symm.trans hp₂
  | refused hi hp =>
    cases h₂ with
    | plain hi₂ hd₂ => cases hi.symm.trans hi₂
    | prepared hi₂ hp₂ hd₂ =>
      cases hi.symm.trans hi₂
      cases hp.symm.trans hp₂
    | refused hi₂ hp₂ =>
      cases hi.symm.trans hi₂
      cases hp.symm.trans hp₂
      exact ⟨rfl, rfl, rfl⟩

namespace State

variable (program : Program) (host : Host σ α ε) (Like : σ → σ → Prop) (input : String)

/-- A parse begins ready for its derivation. -/
theorem ready_initial (calls : List (Call α)) {m n : σ} (hm : Like m n) :
    ({ initial input n with calls := calls } : State σ α).Ready program host Like (.ofText input)
      [] (.ofText input) [] m := by
  refine ⟨sound_initial input n calls, fun id offset => ⟨nofun, fun h => ?_⟩, rfl, rfl, hm⟩
  have hf := h.2
  rw [show ({ initial input n with calls := calls } : State σ α).memo = Memo.empty from rfl,
    Memo.find?_empty] at hf
  cases hf

end State

namespace Program

variable {program : Program} {host : Host σ α ε} {Like : σ → σ → Prop} {input : String}

/-- The answer of a parse follows from what its failures leave noted. -/
theorem answer_eq {v : Verdict α ε} {log : List (Event α)} {s : State σ α} (allowRest : Bool)
    (hmuted : v.GoesOn → s.muted = false)
    (hrecord : s.record = Record.ofFailures input (Event.failuresOf log))
    (hcursor : v.GoesOn → s.cursor = v.stopFrom (.ofText input)) :
    program.answer allowRest v.outcome s = v.answer program allowRest input log := by
  cases v with
  | matched value stop bound =>
    have hs : s.cursor = stop := hcursor trivial
    have hr := State.record_recordFailure program.endExpectation s
    rw [hmuted trivial, hrecord, hs] at hr
    change (if allowRest || s.cursor.atEnd then _ else _) = _
    rw [hs]
    change _ = if allowRest || stop.atEnd then _ else _
    split
    · rfl
    · change Except.error (ParseError.refused
        ((s.recordFailure program.endExpectation).record.mismatch program)) = _
      rw [hr, Record.ofFailures, Record.ofFailures, Record.noteAll_append]
      rfl
  | failed =>
    change Except.error (ParseError.refused (s.record.mismatch program)) = _
    rw [hrecord]
    rfl
  | aborted e => rfl

/-- What is derived for the start rule happens behind the initializer. -/
theorem invoke_start (hl : host.Alike Like) (hcached : program.cached = true → ∀ m n, Like m n)
    (allowRest : Bool) {maxDepth d : Nat} (hdepth : d ≤ maxDepth) {start : RuleId} {h h' m : σ}
    {v : Verdict α ε} {log : List (Event α)} (calls : List (Call α)) (hm : Like h m)
    (hd : Derives program.rules host d (.ruleRef start) (.ofText input) [] h v log h') :
    ∃ s' : State σ α, program.invoke host maxDepth maxDepth start
        { State.initial input m with calls := calls } = (v.outcome, s') ∧
      program.answer allowRest v.outcome s' = v.answer program allowRest input
        (Event.unrepeatedAll program.cached [] log).1 ∧
      s'.calls = (Event.callsOf (Event.unrepeatedAll program.cached [] log).1).reverse ++ calls ∧
      Like h' s'.host := by
  have hf : Follows program host Like (.ofText input) (.ofText input) [] h v log h'
      ((Node.ruleRef start).run host (program.invoke host maxDepth maxDepth)) :=
    follows_of_derives hl hcached maxDepth hdepth hd
  obtain ⟨s', he, hr, hlike, hon⟩ := hf [] { State.initial input m with calls := calls }
    (State.ready_initial program host Like input calls hm)
  rw [Node.run] at he
  exact ⟨s', he, answer_eq allowRest (fun hv => (hon hv).1) hr.record
    (fun hv => (hon hv).2.cursor), hr.calls, hlike⟩

/-- What is derived for an input happens when it is parsed, up to what is not repeated where results
are kept. -/
theorem runFrom_of_yields (hl : host.Alike Like) (hrefl : ∀ m, Like m m)
    (hcached : program.cached = true → ∀ m n, Like m n) (allowRest : Bool) {maxDepth d : Nat}
    (hdepth : d ≤ maxDepth) {start : RuleId} {memory memory' : σ} {v : Verdict α ε}
    {log : List (Event α)} (h : Yields program host d start memory input v log memory') :
    ∃ s' : State σ α,
      program.runFrom host maxDepth start (.initial input memory) = (v.outcome, s') ∧
      program.answer allowRest v.outcome s' = v.answer program allowRest input
        (Event.unrepeatedAll program.cached [] log).1 ∧
      s'.calls.reverse = Event.callsOf (Event.unrepeatedAll program.cached [] log).1 ∧
      Like memory' s'.host := by
  cases h with
  | plain hi hd =>
    obtain ⟨s', he, ha, hc, hm⟩ := invoke_start hl hcached allowRest hdepth [] (hrefl memory) hd
    refine ⟨s', (runFrom_plain hi maxDepth start memory).trans he, ha, ?_, hm⟩
    rw [hc, List.append_nil, List.reverse_reverse]
  | @prepared code memory₁ v log memory' hi hp hd =>
    obtain ⟨s', he, ha, hc, hm⟩ := invoke_start hl hcached allowRest hdepth
      [⟨.initializer, code, ⟨.ofText input, .ofText input, [], none⟩⟩] (hrefl memory₁) hd
    rw [Event.unrepeatedAll, Event.unrepeated]
    refine ⟨s', (runFrom_prepared hi hp maxDepth start).trans he, ?_, ?_, hm⟩
    · rw [ha]
      cases v <;> rfl
    · rw [hc, List.reverse_append, List.reverse_reverse]
      rfl
  | refused hi hp =>
    exact ⟨_, runFrom_refused hi hp maxDepth start, rfl, rfl, hrefl _⟩

/-- Unless a parse ends at the limit of nested rules, there is a derivation for it. -/
theorem exists_yields (hu : program.cached = false) (hclosed : program.Closed)
    {options : ParseOptions} {start : RuleId}
    (hs : program.findStart options.startRule = .ok start)
    (hfound : ∃ rule, program.rules[start]? = some rule) (memory : σ)
    (hlimit : ∀ limit offset, (program.parse host memory input options).outcome ≠
      .error (.nestingLimit limit offset)) :
    ∃ v log memory', Yields program host options.maxDepth start memory input v log memory' := by
  have hsettles (h : σ) : Settles program host (.ofText input) options.maxDepth options.maxDepth
      (.ruleRef start) (.ofText input) [] h :=
    Node.settles hu hclosed (.ruleRef start) (fun ref hr => List.mem_singleton.mp hr ▸ hfound) _ []
      h
  cases hi : program.initializer with
  | none =>
    rcases hsettles memory with ⟨v, log, memory', hd⟩ | hx
    · exact ⟨v, log, memory', .plain hi hd⟩
    · obtain ⟨limit, offset, s', he⟩ := hx (.initial input memory)
        (State.ready_initial program host Eq input [] rfl)
      rw [Node.run] at he
      rw [parse_eq hs ((runFrom_plain hi options.maxDepth start memory).trans he)] at hlimit
      exact False.elim (hlimit limit offset rfl)
  | some code =>
    rcases hp : host.prepare code ⟨.ofText input, .ofText input, [], none⟩ memory with
      ⟨answer, memory₁⟩
    cases answer with
    | error e => exact ⟨_, _, _, .refused hi hp⟩
    | ok u =>
      rcases hsettles memory₁ with ⟨v, log, memory', hd⟩ | hx
      · exact ⟨_, _, _, .prepared hi hp hd⟩
      · obtain ⟨limit, offset, s', he⟩ := hx _
          (State.ready_initial program host Eq input
            [⟨.initializer, code, ⟨.ofText input, .ofText input, [], none⟩⟩] rfl)
        rw [Node.run] at he
        rw [parse_eq hs ((runFrom_prepared hi hp options.maxDepth start).trans he)] at hlimit
        exact False.elim (hlimit limit offset rfl)

end Program

/-- The rules that a node refers to are those that its expression names. -/
theorem Expr.Becomes.refs {ruleIndex : String → Option RuleId} {e : Expr} {node : Node}
    (h : e.Becomes ruleIndex node) {id : RuleId} (hid : id ∈ node.refs) :
    ∃ name, ruleIndex name = some id := by
  induction h using Becomes.induct with
  | literal | charClass | any | predicate => cases hid
  | ruleRef span name found hi =>
    rw [Node.refs, List.mem_singleton] at hid
    exact ⟨name, hid ▸ hi⟩
  | sequence span elements nodes _ ih | choice span elements nodes _ ih =>
    obtain ⟨node, hm, hid⟩ := Node.mem_refsOfAll.mp hid
    obtain ⟨e, -, -, hrefs⟩ := exists_of_forall₂ ih hm
    exact hrefs hid
  | wrapped span wrapper operator body node _ _ ih => exact ih hid

namespace Grammar.Becomes

variable {grammar : Grammar} {options : Options} {program : Program}

theorem closed (h : grammar.Becomes options program) : program.Closed := by
  intro id rule hr ref hm
  have hmem : rule ∈ program.rules.toList := Array.mem_toList_iff.mpr (Array.mem_of_getElem? hr)
  obtain ⟨source, -, -, hb⟩ := exists_of_forall₂ h.rules hmem
  obtain ⟨name, hn⟩ := hb.refs hm
  obtain ⟨found, hf, -⟩ := h.exists_rule hn
  exact ⟨found, hf⟩

end Grammar.Becomes

theorem Program.mem_startRules_of_findStart {program : Program} {name : Option String}
    {start : RuleId} (h : program.findStart name = .ok start) : start ∈ program.startRules := by
  unfold findStart at h
  split at h
  · split at h
    · rename_i hs
      cases h
      exact List.mem_of_find?_eq_some hs
    · cases h
  · split at h
    · rename_i hs
      cases h
      rw [hs]
      exact List.mem_cons_self
    · cases h

/-- Parsing starts from a rule of the program. -/
theorem Grammar.Becomes.exists_start {grammar : Grammar} {options : Options} {program : Program}
    (h : grammar.Becomes options program) {name : Option String} {start : RuleId}
    (hs : program.findStart name = .ok start) : ∃ found, program.rules[start]? = some found := by
  obtain ⟨declared, hi⟩ := h.startRules start (Program.mem_startRules_of_findStart hs)
  obtain ⟨found, hf, -⟩ := h.exists_rule hi
  exact ⟨found, hf⟩

/-- A parse of a compiled grammar that keeps no results does what is derived, and is derived: unless
it ends at the limit of nested rules, its answer, its calls of the host and what the host remembers
are those of a derivation, which is the only one at any depth; and every derivation in which no more
rules are open than allowed is that of the parse. -/
theorem Grammar.parse_iff_derived {grammar : Grammar} {passes : Passes} {options : Options}
    {program : Program} (h : grammar.Compiles passes options program)
    (hu : options.cache = false) (host : Host σ α ε) (memory : σ) (input : String)
    (how : ParseOptions) {start : RuleId} (hs : program.findStart how.startRule = .ok start) :
    ((∀ limit offset, (program.parse host memory input how).outcome ≠
        .error (.nestingLimit limit offset)) →
      ∃ v log, Yields program host how.maxDepth start memory input v log
          (program.parse host memory input how).host ∧
        (program.parse host memory input how).outcome =
          v.answer program how.allowRest input log ∧
        (program.parse host memory input how).calls = Event.callsOf log ∧
        ∀ d v' log' memory', Yields program host d start memory input v' log' memory' →
          v' = v ∧ log' = log ∧ memory' = (program.parse host memory input how).host) ∧
    ∀ d v log memory', d ≤ how.maxDepth → Yields program host d start memory input v log memory' →
      (program.parse host memory input how).outcome = v.answer program how.allowRest input log ∧
      (program.parse host memory input how).calls = Event.callsOf log ∧
      (program.parse host memory input how).host = memory' := by
  obtain ⟨left, -, hb⟩ := Grammar.becomes_of_compiles h
  have hcached : program.cached = false := hb.cached.trans hu
  obtain ⟨name, hn⟩ := hb.startRules start (Program.mem_startRules_of_findStart hs)
  have hrun : ∀ d v log memory', d ≤ how.maxDepth →
      Yields program host d start memory input v log memory' →
      (program.parse host memory input how).outcome = v.answer program how.allowRest input log ∧
      (program.parse host memory input how).calls = Event.callsOf log ∧
      (program.parse host memory input how).host = memory' := by
    intro d v log memory' hd hy
    obtain ⟨s', he, ha, hc, hm⟩ := Program.runFrom_of_yields host.alike_eq (fun _ => rfl)
      (fun ht => absurd (hcached.symm.trans ht) nofun) how.allowRest hd hy
    rw [hcached, Event.unrepeatedAll_false] at ha hc
    rw [Program.parse_eq hs he]
    exact ⟨ha, hc, hm.symm⟩
  refine ⟨fun hlimit => ?_, hrun⟩
  obtain ⟨found, hf, -⟩ := hb.exists_rule hn
  obtain ⟨v, log, memory', hy⟩ := Program.exists_yields hcached hb.closed hs ⟨found, hf⟩ memory
    hlimit
  obtain ⟨ho, hc, hm⟩ := hrun how.maxDepth v log memory' (Nat.le_refl _) hy
  rw [hm]
  exact ⟨v, log, hy, ho, hc, fun d v' log' memory₂ hy' => hy.unique hy'⟩

theorem Grammar.parse_iff_derived_peek :
    peekGrammar.Compiles .standard { cache := false } (peekParser false) ∧
    (peekParser false).findStart none = .ok 0 ∧
    ∃ v log memory', Yields (peekParser false) (Host.refusing : Host Unit Unit) 512 0 () "abd" v log
        memory' ∧
      ((v.answer (peekParser false) false "abd" log).map fun answer => answer.2) = .ok 3 := by
  have hs : (peekParser false).findStart none = .ok 0 := by decide +kernel
  have ho : (((peekParser false).parse (Host.refusing : Host Unit Unit) () "abd" {}).outcome.map
      fun answer => answer.2) = .ok 3 := by decide +kernel
  obtain ⟨answer, ha, -⟩ := map_eq_ok ho
  obtain ⟨v, log, hy, hv, -⟩ := (parse_iff_derived (compiles_peekParser false) rfl
    (Host.refusing : Host Unit Unit) () "abd" {} hs).1 fun limit offset h => nomatch ha.symm.trans h
  rw [hv] at ho
  exact ⟨compiles_peekParser false, hs, v, log, _, hy, ho⟩

end Peg
