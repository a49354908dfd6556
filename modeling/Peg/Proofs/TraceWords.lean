import Peg.Proofs.Bracketing
import Peg.Proofs.Caching
import Peg.Proofs.Nesting

/-! What traced parses note. Each rule that is invoked is told by a pair of events, whether its
result was kept or not, around what the rules noted that were invoked in it; so a parse notes a word
of pairs, which is cut off where the parse ends early. -/
namespace Peg

variable {σ α ε β γ : Type} {text : Cursor}

namespace Program

/-- Notes program host text limit depth whole before events after: the trail goes from `before` to
`after`, the events being noted on the way, while rules are invoked one behind the other in the
text, with at most `depth` of them open at once. Unless `whole`, the parse ends in the last one. -/
inductive Notes (program : Program) (host : Host σ α ε) (text : Cursor) (limit : Nat) : Nat → Bool →
    Memo α × List TraceEvent → List TraceEvent → Memo α × List TraceEvent → Prop
  | nothing {depth whole trail} : Notes program host text limit depth whole trail [] trail
  /-- The rule is entered in the state `s` and left in `s'`, the cursor being behind its match. -/
  | visit {depth whole id found result inner middle after last} {s s' : State σ α}
      (rule : program.rules[id]? = some found) (here : text.Reaches s.cursor)
      (invoked : program.invoke host limit depth id s = (Outcome.ofOption result, s'))
      (inside : Notes program host text limit (depth - 1) true
        (s.memo, .entering found.name s.cursor :: s.events) inner middle)
      (left : s'.events = .leaving found.name s.cursor result s'.cursor :: middle.2)
      (behind : Notes program host text limit depth whole s'.trail after last) :
      Notes program host text limit depth whole s.trail
        (.entering found.name s.cursor ::
          (inner ++ .leaving found.name s.cursor result s'.cursor :: after)) last
  | ending {depth id found e inner} {s s' : State σ α}
      (rule : program.rules[id]? = some found) (here : text.Reaches s.cursor)
      (invoked : program.invoke host limit depth id s = (.aborted e, s'))
      (inside : Notes program host text limit (depth - 1) false
        (s.memo, .entering found.name s.cursor :: s.events) inner s'.trail) :
      Notes program host text limit depth false s.trail (.entering found.name s.cursor :: inner)
        s'.trail

namespace Notes

variable {program : Program} {host : Host σ α ε} {limit depth : Nat} {whole : Bool}
  {before after : Memo α × List TraceEvent} {events : List TraceEvent}

theorem append {whole' : Bool} {last : Memo α × List TraceEvent} {events' : List TraceEvent}
    (h : program.Notes host text limit depth whole before events after) (hw : whole = true)
    (h' : program.Notes host text limit depth whole' after events' last) :
    program.Notes host text limit depth whole' before (events ++ events') last := by
  induction h with
  | nothing => exact h'
  | visit rule here invoked inside left _ _ ih =>
    rw [List.cons_append, List.append_assoc, List.cons_append]
    exact .visit rule here invoked inside left (ih hw h')
  | ending => cases hw

/-- Where every rule is left again, the parse may end behind the last one. -/
theorem cut (h : program.Notes host text limit depth whole before events after) :
    program.Notes host text limit depth false before events after := by
  induction h with
  | nothing => exact .nothing
  | visit rule here invoked inside left _ _ ih => exact .visit rule here invoked inside left ih
  | ending rule here invoked inside => exact .ending rule here invoked inside

/-- The trail ends with the events. -/
theorem events_eq (h : program.Notes host text limit depth whole before events after) :
    after.2 = events.reverse ++ before.2 := by
  induction h with
  | nothing => rfl
  | visit _ _ _ _ left _ ih ih' =>
    rw [ih', State.trail, left, ih]
    simp only [List.reverse_cons, List.reverse_append, List.append_assoc, List.cons_append,
      List.nil_append, State.trail]
  | ending _ _ _ _ ih =>
    rw [ih]
    simp only [List.reverse_cons, List.append_assoc, List.cons_append, List.nil_append, State.trail]

/-- The rules that are still open could be left in order. -/
theorem exists_balanced (h : program.Notes host text limit depth whole before events after) :
    ∃ closing, Balanced (events ++ closing) ∧ (whole = true → closing = []) := by
  -- Only the last rule may be open at the end, and in it only the last one that it has entered; so
  -- they are closed from the inside out.
  induction h with
  | nothing => exact ⟨[], .nil, fun _ => rfl⟩
  | @visit _ _ _ found result _ _ _ _ s s' _ _ _ _ _ _ ih ih' =>
    obtain ⟨closing, hinner, hw⟩ := ih
    obtain ⟨closing', hafter, hw'⟩ := ih'
    rw [hw rfl, List.append_nil] at hinner
    refine ⟨closing', ?_, hw'⟩
    rw [List.cons_append, List.append_assoc, List.cons_append]
    exact .pair (TraceEvent.leaving_closes found.name s.cursor result s'.cursor) hinner hafter
  | @ending _ _ found _ _ s _ _ _ _ _ ih =>
    obtain ⟨closing, hinner, -⟩ := ih
    refine ⟨closing ++ [.leaving found.name s.cursor (none : Option (Value α)) s.cursor], ?_, nofun⟩
    rw [List.cons_append, ← List.append_assoc]
    exact .pair (TraceEvent.leaving_closes found.name s.cursor none s.cursor) hinner .nil

theorem balanced (h : program.Notes host text limit depth true before events after) :
    Balanced events := by
  obtain ⟨closing, hb, hw⟩ := h.exists_balanced
  rwa [hw rfl, List.append_nil] at hb

end Notes

theorem whole_of_goesOn {o : Outcome ε β} {whole : Bool} (h : whole = false → ∃ e, o = .aborted e)
    (ho : ∀ e, o ≠ .aborted e) : whole = true := by
  cases whole with
  | false =>
    obtain ⟨e, he⟩ := h rfl
    exact absurd he (ho e)
  | true => rfl

def noting (program : Program) (host : Host σ α ε) (text : Cursor) (limit depth : Nat) :
    Contract σ α ε where
  Allows s r := ∃ whole events, program.Notes host text limit depth whole s.trail events r.2.trail ∧
    (whole = false → ∃ e, r.1 = .aborted e)
  still ht _ := ⟨true, [], ht ▸ .nothing, nofun⟩
  around h hs ht ha _ := by
    obtain ⟨whole, events, hn, hw⟩ := h
    refine ⟨whole, events, ?_, fun hf => ?_⟩
    · rw [hs]
      exact ht ▸ hn
    · obtain ⟨e, he⟩ := hw hf
      exact ⟨e, ha e he⟩
  trans h hv h' ht := by
    obtain ⟨whole, events, hn, hw⟩ := h
    obtain ⟨whole', events', hn', hw'⟩ := h'
    rw [ht] at hn'
    exact ⟨whole', events ++ events', hn.append (whole_of_goesOn hw hv) hn', hw'⟩

variable {program : Program} (host : Host σ α ε) {limit : Nat}

/-- How a rule ends that is invoked in `s`: it is left, or the parse ends in it. -/
def Visits (program : Program) (host : Host σ α ε) (text : Cursor) (limit depth : Nat)
    (found : CompiledRule) (s : State σ α) (r : Outcome ε (Value α) × State σ α) : Prop :=
  (∃ result inner middle, r.1 = Outcome.ofOption result ∧
    program.Notes host text limit (depth - 1) true
      (s.memo, .entering found.name s.cursor :: s.events) inner middle ∧
    r.2.events = .leaving found.name s.cursor result r.2.cursor :: middle.2) ∨
  ∃ e inner, r.1 = .aborted e ∧ program.Notes host text limit (depth - 1) false
    (s.memo, .entering found.name s.cursor :: s.events) inner r.2.trail

/-- A node notes what the rules note that it invokes. -/
theorem run_notes {depth : Nat} (hc : ∀ id, Keeps text (RuleResult.Lawful fun _ => false)
      (noting program host text limit depth) 0 (program.invoke host limit depth id)) (node : Node)
    {s t : State σ α} {o : Outcome ε (Value α)}
    (h : node.run host (program.invoke host limit depth) s = (o, t))
    (hs : s.Sound text (RuleResult.Lawful fun _ => false)) :
    ∃ whole events, program.Notes host text limit depth whole s.trail events t.trail ∧
      (whole = false → ∃ e, o = .aborted e) := by
  have hkeeps := node.run_keeps_of_all host (fun id => invoke_restores program host limit depth id)
    hc s hs (Nat.zero_le _)
  rw [h] at hkeeps
  exact hkeeps

/-- A rule is visited as the rules are that it may invoke itself. -/
theorem visits_of_keeps (ht : program.traced = true) {depth : Nat}
    (hc : ∀ depth', depth = depth' + 1 → ∀ id, Keeps text (RuleResult.Lawful fun _ => false)
      (noting program host text limit depth') 0 (program.invoke host limit depth' id))
    {id : RuleId} {found : CompiledRule} (hr : program.rules[id]? = some found) {s : State σ α}
    (hs : s.Sound text (RuleResult.Lawful fun _ => false)) :
    program.Visits host text limit depth found s (program.invoke host limit depth id s) := by
  cases hm : s.memoized? program id with
  | some result =>
    rw [invoke_hit program host limit hr hm, trace_traced ht, leave_traced ht]
    exact Or.inl ⟨result.value, [], _, rfl, .nothing, rfl⟩
  | none =>
    cases depth with
    | zero =>
      rw [invoke_zero program host limit hr hm, trace_traced ht]
      exact Or.inr ⟨_, [], rfl, .nothing⟩
    | succ depth =>
      rcases hb : found.node.run host (program.invoke host limit depth) { s with
        scope := []
        events := .entering found.name s.cursor :: s.events } with ⟨o, t⟩
      obtain ⟨whole, inner, hn, hw⟩ := run_notes host (hc depth rfl) found.node hb
        ⟨hs.inText, hs.kept⟩
      have hb' : found.node.run host (program.invoke host limit depth)
          { s.trace program .enter found s.cursor s.cursor with scope := [] } = (o, t) := by
        rw [trace_traced ht]
        exact hb
      obtain ⟨result, rfl⟩ | ⟨e, rfl⟩ := o.ended_or_aborted
      · rw [invoke_ended program host limit hr hm hb', leave_traced ht, State.remember_eq]
        cases whole_of_goesOn hw (Outcome.ofOption_ne_aborted result)
        exact Or.inl ⟨result, inner, t.trail, rfl, hn, rfl⟩
      · rw [invoke_aborted program host limit hr hm hb']
        exact Or.inr ⟨e, inner, rfl, hn.cut⟩

/-- To invoke a rule keeps the contract. -/
theorem invoke_keeps (ht : program.traced = true) (depth : Nat) (id : RuleId) :
    Keeps text (RuleResult.Lawful fun _ => false) (noting program host text limit depth) 0
      (program.invoke host limit depth id) := by
  induction depth using Nat.strongRecOn generalizing id with
  | _ depth ih =>
    intro s hs _
    cases hr : program.rules[id]? with
    | none =>
      rw [invoke_unknown program host limit hr]
      exact ⟨true, [], .nothing, nofun⟩
    | some found =>
      rcases he : program.invoke host limit depth id s with ⟨o, s'⟩
      have hv : program.Visits host text limit depth found s (o, s') := by
        rw [← he]
        exact visits_of_keeps host ht (fun depth' hd id => ih depth' (by omega) id) hr hs
      obtain ⟨result, inner, middle, rfl, hn, hleft⟩ | ⟨e, inner, rfl, hn⟩ := hv
      · exact ⟨true, _, .visit hr hs.inText he hn hleft .nothing, nofun⟩
      · exact ⟨false, _, .ending hr hs.inText he hn, fun _ => ⟨e, rfl⟩⟩

/-- A rule that is invoked notes that it is entered, then what the rules note that are invoked in
it, and then that it is left, unless the parse ends in it. -/
theorem invoke_visits (ht : program.traced = true) (depth : Nat) {id : RuleId}
    {found : CompiledRule} (hr : program.rules[id]? = some found) {s : State σ α}
    (hs : s.Sound text (RuleResult.Lawful fun _ => false)) :
    program.Visits host text limit depth found s (program.invoke host limit depth id s) :=
  visits_of_keeps host ht (fun depth' _ id => invoke_keeps host ht depth' id) hr hs

variable {host}

/-- What is noted of the start rule. -/
theorem runFrom_notes (ht : program.traced = true) {maxDepth : Nat} {start : RuleId}
    {found : CompiledRule} (hr : program.rules[start]? = some found) {memory : σ} {input : String}
    {o : Outcome ε (Value α)} {s : State σ α}
    (h : program.runFrom host maxDepth start (.initial input memory) = (o, s)) :
    let opening := TraceEvent.entering found.name (.ofText input)
    (∃ result inner last, o = Outcome.ofOption result ∧
      s.events.reverse =
        opening :: (inner ++ [.leaving found.name (.ofText input) result s.cursor]) ∧
      program.Notes host (.ofText input) maxDepth (maxDepth - 1) true (.empty, [opening]) inner
        last) ∨
    ∃ e inner closing last, o = .aborted e ∧
      s.events.reverse <+: opening :: (inner ++ [closing]) ∧ Balanced inner ∧
      closing.Closes opening ∧
      program.Notes host (.ofText input) maxDepth maxDepth false (.empty, []) s.events.reverse
        last := by
  intro opening
  have hcloses : (TraceEvent.leaving found.name (.ofText input) (none : Option (Value α))
      (.ofText input)).Closes opening := TraceEvent.leaving_closes found.name (.ofText input) none _
  obtain ⟨e, context, rfl, hnone⟩ | ⟨memory', calls, hinvoke⟩ := runFrom_cases h
  · rw [hnone]
    exact Or.inr ⟨_, [], _, (.empty, []), rfl, List.nil_prefix, .nil, hcloses, .nothing⟩
  · have hv : program.Visits host (.ofText input) maxDepth maxDepth found
        { State.initial input memory' with calls := calls } (o, s) := by
      rw [← hinvoke]
      exact invoke_visits host ht maxDepth hr (State.sound_initial input memory' calls)
    obtain ⟨result, inner, middle, ho, hn, hleft⟩ | ⟨e, inner, ho, hn⟩ := hv
    · refine Or.inl ⟨result, inner, middle, ho, ?_, hn⟩
      have hevents : s.events = .leaving found.name (.ofText input) result s.cursor ::
          (inner.reverse ++ [opening]) := hleft.trans (congrArg _ hn.events_eq)
      rw [hevents, List.reverse_cons, List.reverse_append, List.reverse_reverse]
      rfl
    · have hevents : s.events.reverse = opening :: inner := by
        rw [show s.events = inner.reverse ++ [opening] from hn.events_eq, List.reverse_append,
          List.reverse_reverse]
        rfl
      have hended := hinvoke.trans (congrArg (fun o => (o, s)) ho)
      have hnotes : program.Notes host (.ofText input) maxDepth maxDepth false (.empty, [])
          (opening :: inner) s.trail := .ending hr (Cursor.reaches_refl _) hended hn
      obtain ⟨closing, hbalanced, -⟩ := hn.exists_balanced
      rw [hevents]
      refine Or.inr ⟨e, inner ++ closing, _, _, ho, ?_, hbalanced, hcloses, hnotes⟩
      rw [List.append_assoc]
      exact List.prefix_append (opening :: inner) _

end Program

/-- The trace of a parse is well nested and does no harm. Whatever a parse has come to, a rule that
is invoked notes that it is entered, what is noted of the rules invoked in it, and that it is left,
at the cursor where its invocation ends. So a parse that comes to an end notes a pair of events for
the start rule around such words, and one that ends early the first events of such a pair. In the
log, the line of each event is indented by the number of other rules that are open around it, and
after a parse that comes to an end none is counted any more. Without the trace, the parse has the
same outcome and the same calls. -/
theorem Grammar.trace_well_nested {grammar : Grammar} {passes : Passes} {options : Options}
    {program : Program} (h : grammar.Compiles passes { options with trace := true } program)
    (host : Host σ α ε) (memory : σ) (input : String) (how : ParseOptions) {start : RuleId}
    (hs : program.findStart how.startRule = .ok start) :
    let events := (program.parse host memory input how).events
    (∀ depth id found (s : State σ α), program.rules[id]? = some found →
      s.Sound (.ofText input) (RuleResult.Lawful fun _ => false) →
      program.Visits host (.ofText input) how.maxDepth depth found s
        (program.invoke host how.maxDepth depth id s)) ∧
    (∃ found, program.rules[start]? = some found ∧
      let opening := TraceEvent.entering found.name (.ofText input)
      ((∀ e, ¬ program.Aborts host memory input how e) → ∃ result s inner last,
        program.runFrom host how.maxDepth start (.initial input memory) =
          (Outcome.ofOption result, s) ∧
        events = opening :: (inner ++ [.leaving found.name (.ofText input) result s.cursor]) ∧
        program.Notes host (.ofText input) how.maxDepth (how.maxDepth - 1) true
          (.empty, [opening]) inner last ∧
        Balanced inner ∧ events.foldl TraceEvent.depthAfter 0 = 0) ∧
      ∀ e, program.Aborts host memory input how e → ∃ inner closing last,
        events <+: opening :: (inner ++ [closing]) ∧ Balanced inner ∧ closing.Closes opening ∧
        program.Notes host (.ofText input) how.maxDepth how.maxDepth false (.empty, []) events
          last) ∧
    (∀ before event after, events = before ++ event :: after →
      ∃ others, openAfter [] before = event.openBefore others ∧
        (TraceEvent.log events)[before.length]? = some (event.indented others.length)) ∧
    ∃ off, grammar.Compiles passes { options with trace := false } off ∧
      (program.parse host memory input how).outcome = (off.parse host memory input how).outcome ∧
      (program.parse host memory input how).calls = (off.parse host memory input how).calls ∧
      (program.parse host memory input how).host = (off.parse host memory input how).host := by
  intro events
  obtain ⟨left, -, hb⟩ := becomes_of_compiles h
  obtain ⟨found, hr⟩ := hb.exists_start hs
  obtain ⟨houtcome, hcalls, hhost⟩ := Program.parse_traced program host false memory input how
  rcases hrun : program.runFrom host how.maxDepth start (.initial input memory) with ⟨o, s⟩
  have hevents : events = s.events.reverse := congrArg ParseResult.events (Program.parse_eq hs hrun)
  have haborts := Program.aborts_iff_of_runFrom hs hrun
  have hnotes := Program.runFrom_notes hb.traced hr hrun
  rw [← hevents] at hnotes
  refine ⟨fun depth id found s hr hs => Program.invoke_visits host hb.traced depth hr hs,
    ⟨found, hr, fun hgo => ?_, fun e ha => ?_⟩, fun before event after he => ?_, _,
    compiles_trace h false, houtcome.symm, hcalls.symm, hhost.symm⟩
  · obtain ⟨result, inner, last, rfl, he, hn⟩ | ⟨e, -, -, -, ho, -⟩ := hnotes
    · refine ⟨result, s, inner, last, rfl, he, hn, hn.balanced, ?_⟩
      rw [he]
      exact Balanced.foldl_depthAfter (.pair (TraceEvent.leaving_closes _ _ _ _) hn.balanced .nil)
    · exact absurd ((haborts e).mpr ho) (hgo e)
  · obtain ⟨result, -, -, rfl, -⟩ | ⟨e', inner, closing, last, -, hp, hi, hc, hn⟩ := hnotes
    · have ho := (haborts e).mp ha
      cases result <;> cases ho
    · exact ⟨inner, closing, last, hp, hi, hc, hn⟩
  · obtain ⟨result, inner, last, -, hw, hn⟩ | ⟨-, inner, closing, -, -, hp, hi, hc, -⟩ := hnotes
    · exact Balanced.getElem?_log (.pair (TraceEvent.leaving_closes _ _ _ _) hn.balanced .nil)
        ⟨[], (List.append_nil events).trans hw⟩ he
    · exact Balanced.getElem?_log (.pair hc hi .nil) hp he

/-- Behind the lookahead, `word` is entered and left at once, its result being kept; and where only
one rule may be open, it is entered and the parse ends in it. -/
theorem Grammar.trace_well_nested_peek :
    let traced := { peekParser true with traced := true }
    peekGrammar.Compiles .standard { cache := true, trace := true } traced ∧
    traced.findStart none = .ok 0 ∧
    (∀ e, ¬ traced.Aborts (Host.refusing : Host Unit Unit) () "abd" {} e) ∧
    (traced.parse (Host.refusing : Host Unit Unit) () "abd" {}).events.foldl
      TraceEvent.depthAfter 0 = 0 ∧
    traced.Aborts (Host.refusing : Host Unit Unit) () "abd" { maxDepth := 1 } (.nestingLimit 1 0) ∧
    ∃ found inner closing, traced.rules[0]? = some found ∧
      (traced.parse (Host.refusing : Host Unit Unit) () "abd" { maxDepth := 1 }).events <+:
        .entering found.name (.ofText "abd") :: (inner ++ [closing]) ∧
      Balanced inner ∧ closing.Closes (.entering found.name (.ofText "abd")) := by
  intro traced
  have hcompiles : peekGrammar.Compiles .standard { cache := true, trace := true } traced :=
    compiles_trace (compiles_peekParser true) true
  have hs : traced.findStart none = .ok 0 := by decide +kernel
  have hok : ((traced.parse (Host.refusing : Host Unit Unit) () "abd" {}).outcome.map
      fun answer => answer.2) = .ok 3 := by decide +kernel
  have hended : ((traced.parse (Host.refusing : Host Unit Unit) () "abd"
      { maxDepth := 1 }).outcome.map fun answer => answer.2) = .error (.nestingLimit 1 0) := by
    decide +kernel
  obtain ⟨answer, ha, -⟩ := map_eq_ok hok
  have hgo (e : ParseError) : ¬ traced.Aborts (Host.refusing : Host Unit Unit) () "abd" {} e :=
    fun haborts => nomatch ha.symm.trans (Program.outcome_of_aborts haborts)
  have haborts : traced.Aborts (Host.refusing : Host Unit Unit) () "abd" { maxDepth := 1 }
      (.nestingLimit 1 0) := by
    rcases hr : traced.runFrom (Host.refusing : Host Unit Unit) 1 0 (.initial "abd" ()) with ⟨o, s⟩
    have ho := map_eq_error hended
    rw [Program.parse_eq hs hr] at ho
    exact (Program.aborts_iff_of_runFrom hs hr _).mpr (Program.aborted_of_answer ho)
  obtain ⟨-, ⟨_, _, hwhole, -⟩, -⟩ := @trace_well_nested Unit Unit String peekGrammar .standard
    { cache := true } traced hcompiles Host.refusing () "abd" {} 0 hs
  obtain ⟨-, ⟨found, hfound, -, hcut⟩, -⟩ :=
    @trace_well_nested Unit Unit String peekGrammar .standard { cache := true } traced hcompiles
      Host.refusing () "abd" { maxDepth := 1 } 0 hs
  obtain ⟨_, _, _, _, -, -, -, -, hdepth⟩ := hwhole hgo
  obtain ⟨inner, closing, _, hprefix, hbalanced, hcloses, -⟩ := hcut _ haborts
  exact ⟨hcompiles, hs, hgo, hdepth, haborts, found, inner, closing, hfound, hprefix, hbalanced,
    hcloses⟩

end Peg
