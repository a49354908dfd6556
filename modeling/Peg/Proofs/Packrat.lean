import Peg.Proofs.NewCalls
import Peg.Proofs.Retention

/-! Parsers that keep the results of rules, and have no left recursion. Of the rules that a run has
entered, each either is still open or has a result that is kept; so none is run a second time at the
same offset. -/
namespace Peg

variable {σ α ε : Type} {text : Cursor} {opened : List (String × Nat)} {p n : Nat}

/-- The rules that are entered in the events, with the offsets. -/
def entered (events : List TraceEvent) : List (String × Nat) :=
  (events.filter (·.kind = .enter)).map fun event => (event.rule, event.span.start.offset)

theorem entered_cons_of_enter {event : TraceEvent} (h : event.kind = .enter)
    (events : List TraceEvent) :
    entered (event :: events) = (event.rule, event.span.start.offset) :: entered events := by
  simp only [entered, List.filter_cons, h, decide_true, if_true, List.map_cons]

theorem entered_cons_of_leave {event : TraceEvent} (h : event.kind ≠ .enter)
    (events : List TraceEvent) : entered (event :: events) = entered events := by
  simp only [entered, List.filter_cons, h, decide_false, Bool.false_eq_true, if_false]

theorem entered_reverse (events : List TraceEvent) :
    entered events.reverse = (entered events).reverse := by
  rw [entered, List.filter_reverse, List.map_reverse, entered]

namespace Program

/-- The rules that were entered so far are different rules of the program, or were entered at
different offsets up to `n`; and unless they are open, their results are kept. -/
structure Books (program : Program) (n : Nat) (opened : List (String × Nat))
    (trail : Memo α × List TraceEvent) : Prop where
  nodup : (entered trail.2).Nodup
  known : ∀ entry ∈ entered trail.2, entry.1 ∈ program.ruleNames ∧ entry.2 ≤ n
  settled : ∀ entry ∈ entered trail.2, entry ∈ opened ∨ ∃ id found,
    program.rules[id]? = some found ∧ found.name = entry.1 ∧
      (trail.1.find? id entry.2).isSome = true

def UniqueNames (program : Program) : Prop :=
  ∀ (id id' : RuleId) (found found' : CompiledRule), program.rules[id]? = some found →
    program.rules[id']? = some found' → found.name = found'.name → id = id'

variable {program : Program} {rule : RuleId → Bool} {calls : String → String → Prop} {id : RuleId}
  {found : CompiledRule} {memo : Memo α} {events : List TraceEvent} {c : Cursor}

/-- A rule may be entered that is not open and of which nothing is kept. -/
theorem Books.enter (h : program.Books n opened (memo, events)) (hu : program.UniqueNames)
    (hr : program.rules[id]? = some found) (ho : (found.name, c.offset) ∉ opened)
    (hm : memo.find? id c.offset = none) (hc : c.offset ≤ n) :
    program.Books n ((found.name, c.offset) :: opened)
      (memo, .entering found.name c :: events) := by
  have hentered : entered (.entering found.name c :: events) =
      (found.name, c.offset) :: entered events := entered_cons_of_enter rfl events
  refine ⟨?_, ?_, ?_⟩
  all_goals
    dsimp only
    rw [hentered]
  · refine List.nodup_cons.mpr ⟨fun hmem => ?_, h.nodup⟩
    rcases h.settled _ hmem with hopen | ⟨id', found', hr', hn, hkept⟩
    · exact ho hopen
    · cases hu id' id found' found hr' hr hn
      dsimp only at hkept
      rw [hm] at hkept
      cases hkept
  · exact List.forall_mem_cons.mpr ⟨⟨List.mem_map_of_mem (Array.mem_toList_iff.mpr
      (Array.mem_of_getElem? hr)), hc⟩, h.known⟩
  · refine List.forall_mem_cons.mpr ⟨Or.inl List.mem_cons_self, fun entry hmem => ?_⟩
    exact (h.settled entry hmem).imp_left (List.mem_cons_of_mem _)

/-- A rule may be left whose result is kept. -/
theorem Books.leave (h : program.Books n ((found.name, c.offset) :: opened) (memo, events))
    (hr : program.rules[id]? = some found) {closing : TraceEvent} (hk : closing.kind ≠ .enter)
    (result : RuleResult α) :
    program.Books n opened (memo.insert id c.offset result, closing :: events) := by
  have hentered : entered (closing :: events) = entered events := entered_cons_of_leave hk events
  refine ⟨?_, ?_, ?_⟩
  all_goals
    dsimp only
    rw [hentered]
  · exact h.nodup
  · exact h.known
  · intro entry hmem
    have hinsert (id' : RuleId) (hkept : (memo.find? id' entry.2).isSome = true) :
        ((memo.insert id c.offset result).find? id' entry.2).isSome = true := by
      rw [Memo.find?_insert]
      split
      · rfl
      · exact hkept
    rcases h.settled entry hmem with hopen | ⟨id', found', hr', hn, hkept⟩
    · rcases List.mem_cons.mp hopen with rfl | hopen
      · refine Or.inr ⟨id, found, hr, rfl, ?_⟩
        rw [Memo.find?_insert, if_pos rfl]
        rfl
      · exact Or.inl hopen
    · exact Or.inr ⟨id', found', hr', hn, hinsert id' hkept⟩

/-- To keep the books is a contract: they are in order again behind a step, but for the rules that
are open where the parse ends. -/
def booking (program : Program) (n : Nat) (opened : List (String × Nat)) : Contract σ α ε where
  Allows s r := program.Books n opened s.trail → ∃ opened',
    program.Books n opened' r.2.trail ∧ ((∀ e, r.1 ≠ .aborted e) → opened' = opened)
  still ht _ hb := ⟨opened, ht ▸ hb, fun _ => rfl⟩
  around h hs ht ha _ hb := by
    obtain ⟨opened', hb', ho⟩ := h (hs ▸ hb)
    exact ⟨opened', ht ▸ hb', fun hv => ho fun e he => hv e (ha e he)⟩
  trans h hv h' ht hb := by
    obtain ⟨opened', hb', ho⟩ := h hb
    cases ho hv
    exact h' (ht ▸ hb')

variable (host : Host σ α ε)

/-- A rule keeps the books wherever it is admitted. -/
theorem invokeNew_books (hg : program.Guarded rule calls) (hu : program.UniqueNames)
    (hon : program.cached = true) (hbytes : ∀ c, text.Reaches c → c.offset ≤ n)
    (limit depth : Nat) (ha : program.Admits calls opened p id) :
    Keeps text (RuleResult.Lawful rule) (booking program n opened) p
      (program.invokeNew host limit depth id) := by
  induction depth using Nat.strongRecOn generalizing opened p id with
  | _ depth ih =>
    intro s hs hp hb
    have ha := ha.mono hp
    -- A rule that is admitted is not open where it is run anew, and nothing is kept of it there.
    have henter {found : CompiledRule} (hr : program.rules[id]? = some found)
        (hm : s.memoized? program id = none) :
        program.Books n ((found.name, s.cursor.offset) :: opened)
          (s.memo, .entering found.name s.cursor :: s.events) := by
      rw [State.memoized?, if_pos hon] at hm
      exact hb.enter hu hr (ha.fresh hr hg) hm (hbytes s.cursor hs.inText)
    rcases h : program.invokeNew host limit depth id s with ⟨o, s'⟩
    rcases invokeNew_cases program host limit h with ⟨-, rfl, rfl⟩ | ⟨result, -, rfl, rfl⟩ |
      ⟨found, hr, hm, rfl, rfl, rfl⟩ | ⟨found, depth', o', t, hr, hm, rfl, hrun, hend⟩
    · exact ⟨opened, hb, fun _ => rfl⟩
    · exact ⟨opened, hb, fun _ => rfl⟩
    · exact ⟨_, henter hr hm, fun hv => absurd rfl (hv _)⟩
    · have hc (id : RuleId) : Gives text (RuleResult.Lawful rule) id
          (program.invokeNew host limit depth' id) :=
        invokeNew_gives program host limit hg.consumes depth' id
      have hinner {q : Nat} {called : RuleId}
          (ha : program.Admits calls ((found.name, s.cursor.offset) :: opened) q called) :=
        ih depth' (Nat.lt_succ_self _) ha
      have hbody := found.node.run_keeps host (fun id => restores_of_gives (hc id))
        (fun id hi => consumes_of_gives (hc id) hi)
        (fun called hm => hinner (ha.inner hr (Nat.le_refl _) fun _ =>
          hg.leftCalls id found hr called hm))
        (fun called => hinner (ha.inner hr (Nat.le_succ _) fun he => by omega))
        { s with scope := [], events := .entering found.name s.cursor :: s.events }
        ⟨hs.inText, hs.kept⟩ (Nat.le_refl _) (henter hr hm)
      rw [hrun] at hbody
      obtain ⟨opened', hb', ho⟩ := hbody
      rcases hend with ⟨e, rfl, rfl, rfl⟩ | ⟨result, rfl, rfl, rfl⟩
      · exact ⟨opened', hb', fun hv => absurd rfl (hv e)⟩
      · cases ho (Outcome.ofOption_ne_aborted result)
        refine ⟨opened, ?_, fun _ => rfl⟩
        rw [State.remember_eq]
        dsimp only [State.trail]
        rw [if_pos hon]
        exact hb'.leave hr (TraceEvent.leaving_kind_ne found.name s.cursor result t.cursor) _

/-- The books of a run are kept from its beginning. -/
theorem runNew_books (hg : program.Guarded rule calls) (hu : program.UniqueNames)
    (hon : program.cached = true) (limit : Nat) (start : RuleId) (input : String) (memory : σ) :
    ∃ opened, program.Books input.utf8ByteSize opened
      (program.runNew host limit start (.initial input memory)).2.trail := by
  have hnone (memo : Memo α) : program.Books input.utf8ByteSize [] (memo, []) :=
    ⟨List.nodup_nil, fun _ hm => absurd hm List.not_mem_nil, fun _ hm => absurd hm List.not_mem_nil⟩
  unfold runNew
  rcases runInitializer_cases program host input memory with ⟨memory', calls', hi⟩ |
    ⟨e, context, memory', calls', hi⟩
  · rw [hi]
    obtain ⟨opened, hb, -⟩ := invokeNew_books host hg hu hon
      (fun c => Cursor.offset_le_of_ofText_reaches) limit limit
      (fun _ _ _ hm => absurd hm List.not_mem_nil) _ (State.sound_initial input memory' calls')
      (Nat.zero_le _) (hnone .empty)
    exact ⟨opened, hb⟩
  · rw [hi]
    exact ⟨[], hnone .empty⟩

/-- So no rule is run twice at one offset, and as many are run as there are pairs of both. -/
theorem newCalls_once (hg : program.Guarded rule calls) (hu : program.UniqueNames)
    (hon : program.cached = true) (memory : σ) (input : String) (how : ParseOptions) :
    (entered (program.newCalls host memory input how)).Nodup ∧
      (entered (program.newCalls host memory input how)).length ≤
        program.rules.size * (input.utf8ByteSize + 1) := by
  unfold newCalls
  cases program.findStart how.startRule with
  | error e => exact ⟨List.nodup_nil, Nat.zero_le _⟩
  | ok start =>
    obtain ⟨opened, hb⟩ := runNew_books host hg hu hon how.maxDepth start input memory
    dsimp only
    rw [entered_reverse, List.nodup_reverse, List.length_reverse]
    -- Different pairs of a declared name and an offset, of which there are only so many.
    have hle := length_le_of_nodup hb.nodup hb.known
    rw [ruleNames, List.length_map, Array.length_toList] at hle
    exact ⟨hb.nodup, hle⟩

end Program

namespace Grammar

/-- What is made of rules with different names are rules with different names. -/
theorem Becomes.uniqueNames {grammar : Grammar} {options : Options} {program : Program}
    (h : grammar.Becomes options program) (hn : (grammar.rules.map (·.name)).Nodup) :
    program.UniqueNames := by
  intro id id' found found' hr hr' hname
  obtain ⟨source, hs, hsource, -⟩ := h.exists_source hr
  obtain ⟨source', hs', hsource', -⟩ := h.exists_source hr'
  have hlt : id < (grammar.rules.map (·.name)).length := by
    rw [List.length_map]
    exact (List.getElem?_eq_some_iff.mp hs).1
  refine (List.getElem?_inj hlt hn).mp ?_
  rw [List.getElem?_map, List.getElem?_map, hs, hs', Option.map_some, Option.map_some, ← hsource,
    ← hsource', hname]

/-- A parser that keeps results and that the standard checks let through runs the body of no rule
twice at one offset, whatever the host does, and so no more bodies than there are pairs of a rule
and an offset; for these are the rules that the parse runs anew. No result that is kept gives way to
another one. And wherever a rule is invoked for which one is kept, it comes to that result and its
end, and no code is run. -/
theorem each_rule_once {grammar : Grammar} {options : Options} {transforms : List Pass}
    {program : Program} (h : grammar.Compiles ⟨Passes.standard.checks, transforms⟩
      { options with cache := true } program) (host : Host σ α ε) (memory : σ) (input : String)
    (how : ParseOptions) :
    (entered (program.newCalls host memory input how)).Nodup ∧
    (entered (program.newCalls host memory input how)).length ≤
      program.rules.size * (input.utf8ByteSize + 1) ∧
    (∀ start, SameButEvents (program.runFrom host how.maxDepth start)
      (program.runNew host how.maxDepth start)) ∧
    ∀ start first, program.runInitializer host (.initial input memory) = (.matched (), first) →
      program.Retains host how.maxDepth start first := by
  obtain ⟨left, hl, hb⟩ := becomes_of_compiles h
  obtain ⟨middle, hchecks, htransforms⟩ := leaves_append hl
  obtain ⟨hpassing, rfl⟩ := passing_of_checks hchecks
  have hg := hb.guarded ((guarded_of_checks hpassing.duplicateRules
    hpassing.leftRecursion).of_leaves htransforms)
  have hu := hb.uniqueNames (nodup_of_leaves htransforms
    (nodup_of_duplicateRule? hpassing.duplicateRules))
  obtain ⟨honce, hcount⟩ := Program.newCalls_once host hg hu hb.cached memory input how
  refine ⟨honce, hcount, program.runNew_sameButEvents host how.maxDepth, fun start first hi => ?_⟩
  obtain ⟨memory', calls, rfl⟩ := Program.first_eq hi
  exact Program.retains hg hb.cached (State.sound_initial input memory' calls)

/-- Both rules are run once, though `word` is invoked twice. -/
theorem each_rule_once_peek :
    let calls := (peekParser true).newCalls (Host.refusing : Host Unit Unit) () "abd" {}
    peekGrammar.Compiles .standard { cache := true } (peekParser true) ∧
      entered calls = [("start", 0), ("word", 0)] ∧ (entered calls).Nodup := by
  intro calls
  have hentered : entered calls = [("start", 0), ("word", 0)] := by decide +kernel
  exact ⟨compiles_peekParser true, hentered,
    (@each_rule_once Unit Unit String peekGrammar {} Passes.standard.transforms _
      (compiles_peekParser true) Host.refusing () "abd" {}).1⟩

end Grammar
end Peg
