import Peg.Proofs.Positions
import Peg.Proofs.Scopes
import Peg.Proofs.TraceWords

/-! What holds wherever a parse evaluates a node. The state it starts from is one of the input, with
lawful results in the memo, and the events tell as many open rules as there are; and evaluating the
node restores all of this, but for the cursor and the labels of a match. -/
namespace Peg

variable {σ α ε : Type} {text : Cursor} {Kept : RuleId → Cursor → RuleResult α → Prop}

theorem Outcome.matched_ne_aborted {β : Type} (value : β) (e : ParseError ε) :
    Outcome.matched value ≠ .aborted e := by
  rintro ⟨⟩

theorem Outcome.failed_ne_aborted {β : Type} (e : ParseError ε) :
    (Outcome.failed : Outcome ε β) ≠ .aborted e := by
  rintro ⟨⟩

/-- The rules that are open, the last one first, as the events tell. -/
def State.openRules (s : State σ α) : List (String × Nat) := openAfter [] s.events.reverse

theorem State.openRules_enter (s : State σ α) (rule : String) :
    openAfter [] (TraceEvent.entering rule s.cursor :: s.events).reverse =
      (rule, s.cursor.offset) :: s.openRules := by
  rw [List.reverse_cons, openAfter_append]
  rfl

/-- A balanced word leaves the rules open that were. -/
theorem State.openRules_of_balanced {s s' : State σ α} {word : List TraceEvent}
    (hw : Balanced word) (he : s'.events = word.reverse ++ s.events) :
    s'.openRules = s.openRules := by
  rw [openRules, he, List.reverse_append, List.reverse_reverse, openAfter_append, hw.openAfter,
    openRules]

namespace Program

/-- In the parse of the input, the node is evaluated in the state, where `depth` more rules may be
open. -/
def Evaluates (program : Program) (host : Host σ α ε) (memory : σ) (input : String)
    (how : ParseOptions) (depth : Nat) (node : Node) (s : State σ α) : Prop :=
  ∃ start first id path, program.findStart how.startRule = .ok start ∧
    program.runInitializer host (.initial input memory) = (.matched (), first) ∧
    program.Runs host how.maxDepth start first depth id path node s

end Program

/-- To enter a rule changes neither the place nor what is kept. -/
theorem State.Sound.entering {s : State σ α} (hs : s.Sound text Kept) (program : Program)
    (rule : CompiledRule) : (s.entering program rule).Sound text Kept := by
  obtain ⟨events, he⟩ := State.trace_eq program .enter rule s.cursor s.cursor s
  rw [State.entering, he]
  exact ⟨hs.inText, hs.kept⟩

/-- The state in which the start rule is invoked. -/
theorem Program.first_eq {program : Program} {host : Host σ α ε} {input : String} {memory : σ}
    {first : State σ α}
    (h : program.runInitializer host (.initial input memory) = (.matched (), first)) :
    ∃ memory' calls, first = { State.initial input memory' with calls := calls } := by
  rcases runInitializer_cases program host input memory with ⟨memory', calls, hi⟩ |
    ⟨e, context, memory', calls, hi⟩
  · exact ⟨memory', calls, (Prod.mk.inj (h.symm.trans hi)).2⟩
  · cases h.symm.trans hi

section Entering

variable {host : Host σ α ε} {call : RuleId → Matcher σ α ε}
  (hc : ∀ id, Restores text Kept (call id))

include hc

/-- A part is run in a sound state if the node is. -/
theorem Node.Enters.sound {node node' : Node} {s s' : State σ α} {i : Nat}
    (h : node.Enters host call s i node' s') (hs : s.Sound text Kept) : s'.Sound text Kept := by
  induction h with
  | @element front node back values s s' before =>
    have hp := Node.run_restores host hc (.sequence front) s hs
    rw [Node.run_sequence_eq_matched.mpr before] at hp
    exact hp.1
  | @alternative front node back s s' before =>
    have hp := Node.run_restores host hc (.choice front) s hs
    rw [Node.run, before] at hp
    exact hp.1
  | @inside operator body s => cases operator <;> exact ⟨hs.inText, hs.kept⟩
  | @again operator body s s' t value _ _ matched _ ih =>
    have hp := Node.run_restores host hc body s' (ih hs)
    rw [matched] at hp
    exact ⟨hp.1.inText, hp.1.kept⟩

end Entering

/-- Where rules come to the same but for the events, a part is run in the same states but for
them. -/
theorem Node.Enters.sameButEvents {host : Host σ α ε} {call call' : RuleId → Matcher σ α ε}
    (hc : ∀ id, SameButEvents (call id) (call' id)) {node node' : Node} {s s' : State σ α} {i : Nat}
    (h : node.Enters host call s i node' s') (events : List TraceEvent) :
    ∃ events', node.Enters host call' { s with events := events } i node'
      { s' with events := events' } := by
  induction h with
  | @element front node back values s s' before =>
    obtain ⟨events', h'⟩ := run_sameButEvents host hc (.sequence front) s s' _ events
      (run_sequence_eq_matched.mpr before)
    exact ⟨events', .element (run_sequence_eq_matched.mp h')⟩
  | @alternative front node back s s' before =>
    obtain ⟨events', h'⟩ := run_sameButEvents host hc (.choice front) s s' .failed events
      (by rw [run, before])
    rw [run] at h'
    exact ⟨events', .alternative h'⟩
  | @inside operator body s =>
    have ha : operator.around { s with events := events } =
        { operator.around s with events := events } := by
      cases operator <;> rfl
    exact ⟨events, ha ▸ .inside⟩
  | @again operator body s s' t value repeats _ matched moved ih =>
    obtain ⟨between, hentered⟩ := ih
    obtain ⟨events', hmatched⟩ := run_sameButEvents host hc body s' t _ between matched
    exact ⟨events', .again repeats hentered hmatched moved⟩

theorem State.entering_sameButEvents (program : Program) (rule : CompiledRule) (s : State σ α)
    (events : List TraceEvent) :
    ∃ events', ({ s with events := events } : State σ α).entering { program with traced := true }
      rule = { s.entering program rule with events := events' } := by
  obtain ⟨e₁, he₁⟩ := State.trace_eq program .enter rule s.cursor s.cursor s
  obtain ⟨e₂, he₂⟩ := State.trace_eq { program with traced := true } .enter rule s.cursor s.cursor
    { s with events := events }
  refine ⟨e₂, ?_⟩
  rw [State.entering, State.entering, he₁, he₂]

namespace Program

variable {program : Program} {host : Host σ α ε} {memory : σ} {input : String} {how : ParseOptions}
  {depth limit : Nat} {node : Node} {start id : RuleId} {path : List Nat} {first s : State σ α}

/-- Wherever a run comes by, it is in the text, and what is kept obeys the laws that the rules
obey. -/
theorem Runs.sound {rule : RuleId → Bool} (hk : ∀ id found, program.rules[id]? = some found →
      rule id = true → found.node.consumes rule = true)
    (hfirst : first.Sound text (RuleResult.Lawful rule))
    (h : program.Runs host limit start first depth id path node s) :
    s.Sound text (RuleResult.Lawful rule) := by
  induction h with
  | start _ _ _ => exact hfirst.entering program _
  | part _ entered ih =>
    exact entered.sound (fun id => restores_of_gives (invoke_gives program host _ hk _ id)) ih
  | call _ _ _ ih => exact ih.entering program _

theorem Evaluates.sound {rule : RuleId → Bool}
    (hk : ∀ id found, program.rules[id]? = some found → rule id = true →
      found.node.consumes rule = true)
    (h : program.Evaluates host memory input how depth node s) :
    s.Sound (.ofText input) (RuleResult.Lawful rule) := by
  obtain ⟨start, first, id, path, -, hfirst, hruns⟩ := h
  obtain ⟨memory', calls, rfl⟩ := first_eq hfirst
  exact hruns.sound hk (State.sound_initial input memory' calls)

/-- The laws of rules that may all match nothing. -/
theorem Evaluates.sound_of_any (h : program.Evaluates host memory input how depth node s) :
    s.Sound (.ofText input) (RuleResult.Lawful fun _ => false) :=
  h.sound fun _ _ _ hr => absurd hr Bool.false_ne_true

section Traced

variable (ht : program.traced = true)

include ht

/-- Without an end of the parse, what is noted on the way is balanced. -/
theorem openRules_run (node : Node) {s' : State σ α} {o : Outcome ε (Value α)}
    (hs : s.Sound text (RuleResult.Lawful fun _ => false))
    (h : node.run host (program.invoke host limit depth) s = (o, s'))
    (ho : ∀ e, o ≠ .aborted e) : s'.openRules = s.openRules := by
  obtain ⟨whole, word, hn, hw⟩ := run_notes host (fun id => invoke_keeps host ht depth id) node h hs
  cases whole_of_goesOn hw ho
  exact State.openRules_of_balanced hn.balanced hn.events_eq

/-- No rule is opened or closed between a node and its parts. -/
theorem openRules_of_enters {node' : Node} {s' : State σ α} {i : Nat}
    (h : node.Enters host (program.invoke host limit depth) s i node' s')
    (hs : s.Sound text (RuleResult.Lawful fun _ => false)) : s'.openRules = s.openRules := by
  have hc (id : RuleId) : Restores text (RuleResult.Lawful fun _ => false)
      (program.invoke host limit depth id) :=
    invoke_restores program host limit depth id
  induction h with
  | @element front node back values s s' before =>
    exact openRules_run ht (.sequence front) hs (Node.run_sequence_eq_matched.mpr before)
      (Outcome.matched_ne_aborted _)
  | @alternative front node back s s' before =>
    have hfront : (Node.choice front).run host (program.invoke host limit depth) s =
        (.failed, s') := by
      rw [Node.run, before]
    exact openRules_run ht (.choice front) hs hfront Outcome.failed_ne_aborted
  | @inside operator body s => cases operator <;> rfl
  | @again operator body s s' t value _ entered matched _ ih =>
    calc
      State.openRules { t with scope := s'.scope } = t.openRules := rfl
      _ = s'.openRules :=
        openRules_run ht body (entered.sound hc hs) matched (Outcome.matched_ne_aborted value)
      _ = s.openRules := ih hs

theorem openRules_entering (rule : CompiledRule) (s : State σ α) :
    (s.entering program rule).openRules = (rule.name, s.cursor.offset) :: s.openRules := by
  rw [State.entering, trace_traced ht]
  exact s.openRules_enter rule.name

/-- The rules that are open and those that may still be opened are as many as are allowed. -/
theorem Runs.length_openRules (hfirst : first.Sound text (RuleResult.Lawful fun _ => false))
    (hopen : first.openRules = [])
    (h : program.Runs host limit start first depth id path node s) :
    s.openRules.length + depth = limit := by
  induction h with
  | @start depth rule enough _ _ =>
    rw [openRules_entering ht, hopen, List.length_singleton]
    omega
  | part here entered ih =>
    have hs := here.sound (fun _ _ _ hr => absurd hr Bool.false_ne_true) hfirst
    rwa [openRules_of_enters ht entered hs]
  | @call depth id path called rule s _ _ _ ih =>
    rw [openRules_entering ht, List.length_cons]
    omega

theorem Evaluates.length_openRules (h : program.Evaluates host memory input how depth node s) :
    s.openRules.length + depth = how.maxDepth := by
  obtain ⟨start, first, id, path, -, hfirst, hruns⟩ := h
  obtain ⟨memory', calls, rfl⟩ := first_eq hfirst
  exact hruns.length_openRules ht (State.sound_initial input memory' calls) rfl

end Traced

/-- What a program comes by, it comes by when it is traced, too. -/
theorem Runs.traced (h : program.Runs host limit start first depth id path node s)
    (events : List TraceEvent) :
    ∃ events', { program with traced := true }.Runs host limit start
      { first with events := events } depth id path node { s with events := events' } := by
  induction h with
  | @start depth rule enough found new =>
    obtain ⟨events', he⟩ := first.entering_sameButEvents program rule events
    exact ⟨events', he ▸ .start enough found new⟩
  | part _ entered ih =>
    obtain ⟨between, here⟩ := ih
    obtain ⟨events', hentered⟩ :=
      entered.sameButEvents (invoke_sameButEvents program host true limit _) between
    exact ⟨events', .part here hentered⟩
  | @call depth id path called rule s _ found new ih =>
    obtain ⟨between, here⟩ := ih
    obtain ⟨events', he⟩ := s.entering_sameButEvents program rule between
    exact ⟨events', he ▸ .call here found new⟩

/-- An evaluation has a traced twin, which is itself if the program is traced already. -/
theorem Evaluates.traced (h : program.Evaluates host memory input how depth node s)
    {o : Outcome ε (Value α)} {s' : State σ α}
    (hrun : node.run host (program.invoke host how.maxDepth depth) s = (o, s')) :
    ∃ events events',
      { program with traced := true }.Evaluates host memory input how depth node
        { s with events := events } ∧
      node.run host ({ program with traced := true }.invoke host how.maxDepth depth)
        { s with events := events } = (o, { s' with events := events' }) ∧
      (program.traced = true → events = s.events ∧ events' = s'.events) := by
  by_cases ht : program.traced = true
  · have hself : { program with traced := true } = program := by rw [← ht]
    rw [hself]
    exact ⟨s.events, s'.events, h, hrun, fun _ => ⟨rfl, rfl⟩⟩
  · obtain ⟨start, first, id, path, hstart, hfirst, hruns⟩ := h
    obtain ⟨events, hfirst'⟩ :=
      runInitializer_sameButEvents program host true (.initial input memory) first (.matched ()) []
        hfirst
    obtain ⟨events', hruns'⟩ := hruns.traced events
    obtain ⟨events'', hrun'⟩ := Node.run_sameButEvents host
      (invoke_sameButEvents program host true how.maxDepth depth) node s s' o events' hrun
    exact ⟨events', events'', ⟨start, _, id, path, hstart, hfirst', hruns'⟩, hrun',
      fun ht' => absurd ht' ht⟩

/-- A match goes forward and keeps the labels in scope, those it binds becoming the innermost ones;
a failure changes neither the place nor the labels. -/
theorem Evaluates.restores (h : program.Evaluates host memory input how depth node s)
    {o : Outcome ε (Value α)} {s' : State σ α}
    (hrun : node.run host (program.invoke host how.maxDepth depth) s = (o, s')) :
    s.Permits (.ofText input) (RuleResult.Lawful fun _ => false) (o, s') := by
  have hp := Node.run_restores host
    (fun id => invoke_restores program host how.maxDepth depth id) node s h.sound_of_any
  rwa [hrun] at hp

/-- Evaluating a node restores the state. Unless the parse ends in it, failures are recorded
afterwards if they were before, the cursor is at a place of the input, and as many rules are open as
were, which the events of the program tell once it is traced; that changes nothing else. A failure
leaves the cursor and the labels in scope as they were. A match leaves the cursor no further back,
and the old labels in scope below new ones, which only labels and sequences bind. And a rule that is
invoked always leaves the labels as they were. -/
theorem evaluation_restores (program : Program) (host : Host σ α ε) (memory : σ) (input : String)
    (how : ParseOptions) :
    (∀ {depth : Nat} {node : Node} {s s' : State σ α} {o : Outcome ε (Value α)},
      program.Evaluates host memory input how depth node s →
      node.run host (program.invoke host how.maxDepth depth) s = (o, s') →
      ((∀ e, o ≠ .aborted e) → s'.muted = s.muted ∧
        (∃ events events',
          { program with traced := true }.Evaluates host memory input how depth node
            { s with events := events } ∧
          node.run host ({ program with traced := true }.invoke host how.maxDepth depth)
            { s with events := events } = (o, { s' with events := events' }) ∧
          (openAfter [] events.reverse).length + depth = how.maxDepth ∧
          openAfter [] events'.reverse = openAfter [] events.reverse ∧
          (program.traced = true → events = s.events ∧ events' = s'.events)) ∧
        ∃ front rest, input.toList = front ++ rest ∧
          s'.cursor = ⟨Position.start.advanceBy front, rest⟩) ∧
      (o = .failed → s'.cursor = s.cursor ∧ s'.scope = s.scope) ∧
      ∀ value, o = .matched value → s.cursor.offset ≤ s'.cursor.offset ∧
        ∃ bound, s'.scope = bound ++ s.scope ∧ (node.binds = false → bound = [])) ∧
    ∀ depth id (s : State σ α),
      (program.invoke host how.maxDepth depth id s).2.scope = s.scope := by
  refine ⟨fun {depth node s s' o} heval hrun => ?_,
    fun depth id s => program.invoke_keepsScope host how.maxDepth depth id s⟩
  have hp := heval.restores hrun
  obtain ⟨events, events', heval', hrun', hsame⟩ := heval.traced hrun
  have hopen (ho : ∀ e, o ≠ .aborted e) :
      openAfter [] events'.reverse = openAfter [] events.reverse :=
    openRules_run rfl node heval'.sound_of_any hrun' ho
  cases o with
  | matched value =>
    obtain ⟨hs', hmuted, hreach, bound, hbound⟩ := hp
    refine ⟨fun ho => ⟨hmuted, ?_, Cursor.exists_of_ofText_reaches hs'.inText⟩,
      nofun, fun _ _ => ⟨Cursor.offset_le_of_reaches hreach, bound, hbound, fun hn => ?_⟩⟩
    · exact ⟨events, events', heval', hrun', heval'.length_openRules rfl, hopen ho, hsame⟩
    · have hscope : (node.run host (program.invoke host how.maxDepth depth) s).2.scope = s.scope :=
        Node.keepsScope_of_binds (program.invoke_keepsScope host how.maxDepth depth) hn s
      rw [hrun] at hscope
      exact List.append_left_eq_self.mp (hbound.symm.trans hscope)
  | failed =>
    obtain ⟨hs', hmuted, hcursor, hscope⟩ := hp
    refine ⟨fun ho => ⟨hmuted, ?_, Cursor.exists_of_ofText_reaches hs'.inText⟩,
      fun _ => ⟨hcursor, hscope⟩, nofun⟩
    exact ⟨events, events', heval', hrun', heval'.length_openRules rfl, hopen ho, hsame⟩
  | aborted e => exact ⟨fun ho => absurd rfl (ho e), nofun, nofun⟩

/-- Both alternatives of the start rule fail, each of them behind two characters. -/
theorem evaluation_restores_peek :
    let program := Grammar.peekParser true
    let host : Host Unit Unit := Host.refusing
    ∃ rule s s', program.rules[0]? = some rule ∧
      s = (State.initial "abx" ()).entering program rule ∧
      program.Evaluates host () "abx" {} 511 rule.node s ∧
      rule.node.run host (program.invoke host 512 511) s = (.failed, s') ∧
      s'.furthest.offset = 2 ∧ s'.cursor = s.cursor ∧ s'.scope = s.scope ∧ s'.muted = s.muted := by
  intro program host
  have hfails : (program.rules[0]?.bind fun rule =>
      match rule.node.run host (program.invoke host 512 511)
        ((State.initial "abx" ()).entering program rule) with
      | (.failed, s') => some s'.furthest.offset
      | (.matched _, _) | (.aborted _, _) => none) = some 2 := by
    decide +kernel
  obtain ⟨rule, hr, hfails⟩ := Option.bind_eq_some_iff.mp hfails
  rcases hrun : rule.node.run host (program.invoke host 512 511)
    ((State.initial "abx" ()).entering program rule) with ⟨o, s'⟩
  rw [hrun] at hfails
  have hstart : program.findStart none = .ok 0 := by decide +kernel
  have heval : program.Evaluates host () "abx" {} 511 rule.node
      ((State.initial "abx" ()).entering program rule) :=
    ⟨0, _, 0, [], hstart, rfl, .start rfl hr rfl⟩
  obtain ⟨hkeeps, -⟩ := evaluation_restores program host () "abx" {}
  cases o with
  | failed =>
    obtain ⟨hgoes, hback, -⟩ := hkeeps heval hrun
    obtain ⟨hcursor, hscope⟩ := hback rfl
    exact ⟨rule, _, s', hr, rfl, heval, hrun, Option.some.inj hfails, hcursor, hscope,
      (hgoes Outcome.failed_ne_aborted).1⟩
  | matched value => cases hfails
  | aborted e => cases hfails

end Program
end Peg
