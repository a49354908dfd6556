import Peg.Proofs.LeftRecursion
import Peg.Proofs.OpenRules
import Peg.Proofs.Tracing

/-! Parsers without left recursion. Between two rules that are entered at one offset, one inside the
other, there are left calls only, so that they differ; and then no more rules are ever open than
there are pairs of a rule and an offset. -/
namespace Peg

variable {σ α ε : Type} {text : Cursor} {deep : Prop} {opened : List (String × Nat)} {p : Nat}

namespace Program

/-- The rules of which `rule` says so always consume input, and what a rule may enter before that is
told by `calls`, going by which no rule leads back to itself. -/
structure Guarded (program : Program) (rule : RuleId → Bool) (calls : String → String → Prop) :
    Prop where
  consumes : ∀ (id : RuleId) (found : CompiledRule), program.rules[id]? = some found →
    rule id = true → found.node.consumes rule = true
  leftCalls : ∀ (id : RuleId) (found : CompiledRule), program.rules[id]? = some found →
    ∀ called ∈ found.node.leftCalls rule, ∀ next : CompiledRule,
      program.rules[called]? = some next → calls found.name next.name
  acyclic : ∀ name, ¬ Relation.TransGen calls name name

/-- The rule may be entered at the offset `p` inside the ones that are open: those that were entered
there lead to it. -/
def Admits (program : Program) (calls : String → String → Prop) (opened : List (String × Nat))
    (p : Nat) (id : RuleId) : Prop :=
  ∀ found : CompiledRule, program.rules[id]? = some found → ∀ entry ∈ opened,
    entry.2 ≤ p ∧ (entry.2 = p → Relation.TransGen calls entry.1 found.name)

variable {program : Program} {rule : RuleId → Bool} {calls : String → String → Prop}

theorem Admits.mono {q : Nat} {id : RuleId} (h : program.Admits calls opened p id) (hq : p ≤ q) :
    program.Admits calls opened q id := by
  intro found hr entry hm
  obtain ⟨hle, hcalls⟩ := h found hr entry hm
  exact ⟨Nat.le_trans hle hq, fun he => hcalls (by omega)⟩

/-- A rule may be entered further on than all others, and where the last one was entered if that may
enter it before consuming input. -/
theorem Admits.inner {id : RuleId} {found : CompiledRule} (hr : program.rules[id]? = some found)
    (h : program.Admits calls opened p id) {q : Nat} (hq : p ≤ q) {called : RuleId}
    (hc : p = q → ∀ next : CompiledRule, program.rules[called]? = some next →
      calls found.name next.name) :
    program.Admits calls ((found.name, p) :: opened) q called := by
  intro next hn entry hm
  rcases List.mem_cons.mp hm with rfl | hm
  · exact ⟨hq, fun he => .single (hc he next hn)⟩
  · obtain ⟨hle, hcalls⟩ := h found hr entry hm
    exact ⟨Nat.le_trans hle hq, fun he => .tail (hcalls (by omega)) (hc (by omega) next hn)⟩

/-- A rule that is admitted is not open at that offset. -/
theorem Admits.fresh {id : RuleId} {found : CompiledRule} (hr : program.rules[id]? = some found)
    (h : program.Admits calls opened p id) (hg : program.Guarded rule calls) :
    (found.name, p) ∉ opened :=
  fun hm => hg.acyclic found.name ((h found hr _ hm).2 rfl)

theorem trace_traced (ht : program.traced = true) (kind : TraceKind) (found : CompiledRule)
    (start stop : Cursor) (s : State σ α) : s.trace program kind found start stop =
      { s with events := ⟨kind, found.name, start.spanTo stop⟩ :: s.events } :=
  if_pos ht

theorem leave_traced (ht : program.traced = true) (found : CompiledRule) (start : Cursor)
    (result : Option (Value α)) (s : State σ α) :
    (s.leave program found start result : Outcome ε (Value α) × State σ α) =
      (Outcome.ofOption result,
        { s with events := .leaving found.name start result s.cursor :: s.events }) := by
  cases result with
  | some value => exact congrArg (Prod.mk _) (trace_traced ht .matched found start s.cursor s)
  | none => exact congrArg (Prod.mk _) (trace_traced ht .failed found start start s)

variable {Kept : RuleId → Cursor → RuleResult α → Prop} (host : Host σ α ε)

/-- A rule that is entered nests if its body does behind the event, whether or not that is run. -/
theorem enter_nests (hg : program.Guarded rule calls) (ht : program.traced = true)
    (hn : opened.Nodup) {id : RuleId} (ha : program.Admits calls opened p id)
    {body : CompiledRule → Matcher σ α ε}
    (hbody : ∀ (found : CompiledRule) (s : State σ α), program.rules[id]? = some found →
      s.Sound text Kept → program.Admits calls opened s.cursor.offset id →
      s.Nests deep opened (body found
        { s with events := ⟨.enter, found.name, s.cursor.spanTo s.cursor⟩ :: s.events })) :
    Nests text Kept deep opened p (program.enter id body) := by
  intro s hs hp
  unfold enter
  cases hr : program.rules[id]? with
  | none => exact State.nests_of_events_eq hn rfl nofun
  | some found =>
    have ha := ha.mono hp
    dsimp only
    rw [trace_traced ht]
    split
    · rename_i result hm
      rw [leave_traced ht]
      have hn' := List.nodup_cons.mpr ⟨ha.fresh hr hg, hn⟩
      refine State.Nests.enter_leave (o := (.failed : Outcome ε Unit)) hn rfl
        (TraceEvent.leaving_kind_ne found.name s.cursor result.value result.stop)
        (State.nests_of_events_eq hn' rfl nofun) nofun ?_ rfl
      cases result.value <;> nofun
    · exact hbody found s hr hs ha

theorem evaluate_nests (ht : program.traced = true) (hn : opened.Nodup)
    {call : RuleId → Matcher σ α ε} {id : RuleId} {found : CompiledRule} {s : State σ α}
    (hs : s.Sound text Kept)
    (hbody : Nests text Kept deep ((found.name, s.cursor.offset) :: opened) s.cursor.offset
      (found.node.run host call)) :
    s.Nests deep opened (program.evaluate host call id found
      { s with events := ⟨.enter, found.name, s.cursor.spanTo s.cursor⟩ :: s.events }) := by
  have h := hbody { s with
      scope := []
      events := ⟨.enter, found.name, s.cursor.spanTo s.cursor⟩ :: s.events }
    ⟨hs.inText, hs.kept⟩ (Nat.le_refl _)
  rcases he : found.node.run host call { s with
    scope := []
    events := ⟨.enter, found.name, s.cursor.spanTo s.cursor⟩ :: s.events } with ⟨o, t⟩
  rw [he] at h
  obtain ⟨result, rfl⟩ | ⟨e, rfl⟩ := o.ended_or_aborted
  · rw [evaluate_ended program host call id found he, leave_traced ht, State.remember_eq]
    exact State.Nests.enter_leave hn rfl
      (TraceEvent.leaving_kind_ne found.name s.cursor result t.cursor) h
      (Outcome.ofOption_ne_aborted result) (Outcome.ofOption_ne_aborted result) rfl
  · rw [evaluate_aborted program host call id found he]
    exact State.Nests.enter hn rfl h rfl rfl

/-- What opens one more rule where it is admitted. -/
theorem Admits.opens {id : RuleId} {found : CompiledRule} (hr : program.rules[id]? = some found)
    (h : program.Admits calls opened p id) (hg : program.Guarded rule calls) (hn : opened.Nodup)
    {n : Nat} (hp : p ≤ n) (hb : ∀ entry ∈ opened, entry.1 ∈ program.ruleNames ∧ entry.2 ≤ n) :
    ((found.name, p) :: opened).Nodup ∧
      ∀ entry ∈ (found.name, p) :: opened, entry.1 ∈ program.ruleNames ∧ entry.2 ≤ n :=
  ⟨List.nodup_cons.mpr ⟨h.fresh hr hg, hn⟩, List.forall_mem_cons.mpr
    ⟨⟨List.mem_map_of_mem (Array.mem_toList_iff.mpr (Array.mem_of_getElem? hr)), hp⟩, hb⟩⟩

/-- A rule nests wherever it is admitted, and so many rules may be open that no depth is lacking if
there is one for every pair of a rule and an offset. -/
theorem invoke_nests (hg : program.Guarded rule calls) (ht : program.traced = true) {n : Nat}
    (hbytes : ∀ c, text.Reaches c → c.offset ≤ n) (limit depth : Nat) (hn : opened.Nodup)
    (hb : ∀ entry ∈ opened, entry.1 ∈ program.ruleNames ∧ entry.2 ≤ n)
    (hdeep : deep → program.rules.size * (n + 1) ≤ depth + opened.length) {id : RuleId}
    (ha : program.Admits calls opened p id) :
    Nests text (RuleResult.Lawful rule) deep opened p (program.invoke host limit depth id) := by
  induction depth generalizing opened p id with
  | zero =>
    refine enter_nests hg ht hn ha fun found s hr hs ha => ?_
    obtain ⟨hn', hb'⟩ := ha.opens hr hg hn (hbytes s.cursor hs.inText) hb
    refine State.Nests.enter
      (o := (.aborted (.nestingLimit limit s.cursor.offset) : Outcome ε Unit)) hn rfl ⟨fun hd => ?_, [], rfl, apart_nil hn', fun hv => absurd rfl (hv _)⟩ rfl rfl
    have hle := length_le_of_nodup hn' hb'
    have hlength : program.ruleNames.length = program.rules.size := by
      rw [ruleNames, List.length_map, Array.length_toList]
    have hlt := hdeep hd
    rw [hlength, List.length_cons] at hle
    omega
  | succ depth ih =>
    have hc (id : RuleId) :
        Gives text (RuleResult.Lawful rule) id (program.invoke host limit depth id) :=
      invoke_gives program host limit hg.consumes depth id
    refine enter_nests hg ht hn ha fun found s hr hs ha => ?_
    obtain ⟨hn', hb'⟩ := ha.opens hr hg hn (hbytes s.cursor hs.inText) hb
    have hinner {q : Nat} {called : RuleId}
        (ha : program.Admits calls ((found.name, s.cursor.offset) :: opened) q called) :=
      ih hn' hb' (fun hd => by have := hdeep hd; rw [List.length_cons]; omega) ha
    -- What the body may enter before it consumes input comes next in `calls`, and what it enters
    -- further on is admitted as no rule is open there.
    refine evaluate_nests host ht hn hs (Node.run_nests host hn'
      (fun id => restores_of_gives (hc id)) (fun id hi => consumes_of_gives (hc id) hi) found.node
      (fun called hm => ?_) fun called => ?_)
    · exact hinner (ha.inner hr (Nat.le_refl _) fun _ => hg.leftCalls id found hr called hm)
    · exact hinner (ha.inner hr (Nat.le_succ _) fun he => by omega)

end Program

namespace Expr.Becomes

variable {ruleIndex : String → Option RuleId} {named : String → Bool} {rule : RuleId → Bool}

/-- What consumes input becomes what does. -/
theorem consumes (hr : ∀ name id, ruleIndex name = some id → named name = true → rule id = true)
    {e : Expr} {node : Node} (hb : e.Becomes ruleIndex node) (h : e.consumes named = true) :
    node.consumes rule = true := by
  induction hb using Becomes.induct with
  | literal span lit =>
    refine (Bool.and_eq_true _ _).mpr ⟨beq_self_eq_true _, ?_⟩
    rw [Expr.consumes, Bool.not_eq_true', ← Bool.not_eq_true, String.isEmpty_iff] at h
    rw [Bool.not_eq_true', ← Bool.not_eq_true, List.isEmpty_iff]
    exact fun he => h (String.toList_eq_nil_iff.mp he)
  | charClass | any => rfl
  | predicate => cases h
  | ruleRef span name id hi => exact hr name id hi h
  | sequence span es nodes hn ih =>
    clear hn
    change anyConsumes named es = true at h
    change Node.anyConsumes rule nodes = true
    induction ih with
    | nil => cases h
    | cons hfirst _ ih' =>
      obtain ⟨-, hfirst⟩ := hfirst
      rcases (Bool.or_eq_true _ _).mp h with hc | hc
      · exact (Bool.or_eq_true _ _).mpr (Or.inl (hfirst hc))
      · exact (Bool.or_eq_true _ _).mpr (Or.inr (ih' hc))
  | choice span es nodes hn ih =>
    clear hn
    change allConsume named es = true at h
    change Node.allConsume rule nodes = true
    induction ih with
    | nil => rfl
    | cons hfirst _ ih' =>
      obtain ⟨-, hfirst⟩ := hfirst
      obtain ⟨hf, hc⟩ := (Bool.and_eq_true _ _).mp h
      exact (Bool.and_eq_true _ _).mpr ⟨hfirst hf, ih' hc⟩
  | wrapped span wrapper operator body node hw _ ih =>
    cases hw with
    | optional | zeroOrMore | followedBy | notFollowedBy => cases h
    | _ =>
      have hc := ih h
      exact hc

/-- What a node may enter before it consumes input is what its expression may. -/
theorem leftCalls (hr : ∀ name id, ruleIndex name = some id → named name = true → rule id = true)
    {e : Expr} {node : Node} (hb : e.Becomes ruleIndex node) {id : RuleId}
    (h : id ∈ node.leftCalls rule) : ∃ name ∈ e.leftRefs named, ruleIndex name = some id := by
  induction hb using Becomes.induct with
  | literal | charClass | any | predicate => cases h
  | ruleRef span name found hi =>
    rw [Node.leftCalls, List.mem_singleton] at h
    rw [leftRefs_ruleRef]
    exact ⟨name, List.mem_singleton_self name, h ▸ hi⟩
  | sequence span es nodes hn ih =>
    clear hn
    change id ∈ Node.leftCallsOfElements rule nodes at h
    induction ih with
    | nil => cases h
    | @cons e node es nodes hfirst _ ih' =>
      obtain ⟨hb, hfirst⟩ := hfirst
      rw [Node.leftCallsOfElements] at h
      rw [leftRefs_sequence_cons]
      rcases List.mem_append.mp h with hm | hm
      · obtain ⟨name, hm, hi⟩ := hfirst hm
        exact ⟨name, List.mem_append_left _ hm, hi⟩
      · split at hm
        · cases hm
        · rename_i hc
          obtain ⟨name, hm, hi⟩ := ih' hm
          rw [if_neg fun hc' => hc (hb.consumes hr hc')]
          exact ⟨name, List.mem_append_right _ hm, hi⟩
  | choice span es nodes hn ih =>
    clear hn
    change id ∈ Node.leftCallsOfAlternatives rule nodes at h
    induction ih with
    | nil => cases h
    | @cons e node es nodes hfirst _ ih' =>
      obtain ⟨-, hfirst⟩ := hfirst
      rw [Node.leftCallsOfAlternatives] at h
      rcases List.mem_append.mp h with hm | hm
      · obtain ⟨name, hm, hi⟩ := hfirst hm
        exact ⟨name, mem_leftRefs_choice.mpr ⟨e, List.mem_cons_self, hm⟩, hi⟩
      · obtain ⟨name, hm, hi⟩ := ih' hm
        obtain ⟨e', he, hm⟩ := mem_leftRefs_choice.mp hm
        exact ⟨name, mem_leftRefs_choice.mpr ⟨e', List.mem_cons_of_mem _ he, hm⟩, hi⟩
  | wrapped span wrapper operator body node _ _ ih =>
    rw [leftRefs_wrapped]
    exact ih h

end Expr.Becomes

/-- A program is guarded if the grammar is that it was made of. -/
theorem Grammar.Becomes.guarded {grammar : Grammar} {options : Options} {program : Program}
    (hb : grammar.Becomes options program) {named : String → Bool} (hg : grammar.Guarded named) :
    program.Guarded (fun id => (program.ruleName? id).any named) (grammar.LeftCalls named) := by
  have hr (name : String) (id : RuleId) (hi : grammar.ruleIndex? name = some id)
      (hn : named name = true) : (program.ruleName? id).any named = true := by
    obtain ⟨found, hf, rfl⟩ := hb.exists_rule hi
    rw [Program.ruleName?, hf]
    exact hn
  have hsource {id : RuleId} {found : CompiledRule} (hf : program.rules[id]? = some found) :
      ∃ source ∈ grammar.rules, found.name = source.name ∧
        source.expr.Becomes grammar.ruleIndex? found.node :=
    exists_of_forall₂ hb.rules (Array.mem_toList_iff.mpr (Array.mem_of_getElem? hf))
  refine ⟨fun id found hf hc => ?_, fun id found hf called hm next hn => ?_, hg.acyclic⟩
  · obtain ⟨source, hs, hname, hbody⟩ := hsource hf
    rw [Program.ruleName?, hf] at hc
    exact hbody.consumes hr (hg.consumes source hs (hname ▸ hc))
  · obtain ⟨source, hs, hname, hbody⟩ := hsource hf
    obtain ⟨name, hm, hi⟩ := hbody.leftCalls hr hm
    obtain ⟨found', hf', hname'⟩ := hb.exists_rule hi
    cases hn.symm.trans hf'
    exact ⟨source, hs, hname.symm, hname' ▸ hm⟩

namespace Program

variable {program : Program} {rule : RuleId → Bool} {calls : String → String → Prop}
  (host : Host σ α ε)

/-- A parse begins with no rule open. -/
theorem runFrom_nests (hg : program.Guarded rule calls) (ht : program.traced = true) (memory : σ)
    (input : String) (maxDepth : Nat) (start : RuleId) :
    (State.initial input memory).Nests (program.rules.size * (input.utf8ByteSize + 1) ≤ maxDepth) []
      (program.runFrom host maxDepth start (.initial input memory)) := by
  have hinvoke : Nests (.ofText input) (RuleResult.Lawful rule)
      (program.rules.size * (input.utf8ByteSize + 1) ≤ maxDepth) [] 0
      (program.invoke host maxDepth maxDepth start) :=
    invoke_nests host hg ht (fun c => Cursor.offset_le_of_ofText_reaches) maxDepth maxDepth
      List.nodup_nil (fun entry hm => nomatch hm) (fun hd => hd) fun found _ entry hm => nomatch hm
  rcases hr : program.runFrom host maxDepth start (.initial input memory) with ⟨o, s⟩
  obtain ⟨e, context, rfl, hevents⟩ | ⟨memory', calls', hi⟩ := runFrom_cases hr
  · exact State.nests_of_events_eq List.nodup_nil hevents fun limit offset hv =>
      Matcher.toParseError_ne_nestingLimit context e limit offset (Outcome.aborted.inj hv)
  · have hnests := hinvoke _ (State.sound_initial input memory' calls') (Nat.zero_le _)
    rw [hi] at hnests
    exact hnests

end Program

/-- The left recursion check is sound: a parser that the standard passes let through never ends at
the limit of nested rules if that allows for every rule at every offset. And in no parse, however
deep, is a rule ever open twice at one offset, as its trace shows, which changes nothing else. -/
theorem Grammar.never_open_twice {grammar : Grammar} {options : Options} {program : Program}
    (h : grammar.Compiles .standard options program) (host : Host σ α ε) (memory : σ)
    (input : String) (how : ParseOptions) :
    (program.rules.size * (input.utf8ByteSize + 1) ≤ how.maxDepth → ∀ limit offset,
      (program.parse host memory input how).outcome ≠ .error (.nestingLimit limit offset)) ∧
    (∀ before, before <+: ({ program with traced := true }.parse host memory input how).events →
      (openAfter [] before).Nodup) ∧
    ({ program with traced := true }.parse host memory input how).outcome =
      (program.parse host memory input how).outcome ∧
    ({ program with traced := true }.parse host memory input how).calls =
      (program.parse host memory input how).calls := by
  obtain ⟨left, hl, hb⟩ := becomes_of_compiles h
  obtain ⟨named, hg⟩ := guarded_of_leaves_standard hl
  -- Tracing changes neither the outcome nor the calls: the traced parse speaks for the other one.
  obtain ⟨houtcome, hcalls, -⟩ := Program.parse_traced program host true memory input how
  have hguarded : ({ program with traced := true } : Program).Guarded
      (fun id => (program.ruleName? id).any named) (left.LeftCalls named) :=
    ⟨(hb.guarded hg).consumes, (hb.guarded hg).leftCalls, hg.acyclic⟩
  rw [← houtcome]
  cases hs : { program with traced := true }.findStart how.startRule with
  | error name =>
    have hparse : { program with traced := true }.parse host memory input how =
        ⟨.error (.invalidStartRule name), [], [], memory⟩ := by
      simp only [Program.parse, hs]
    rw [hparse]
    refine ⟨fun _ limit offset hv => ?_, apart_nil List.nodup_nil, rfl, hparse ▸ hcalls⟩
    cases hv
  | ok start =>
    have hrun := Program.runFrom_nests host hguarded rfl memory input how.maxDepth start
    rcases hr : { program with traced := true }.runFrom host how.maxDepth start
      (.initial input memory) with ⟨o, s⟩
    rw [hr] at hrun
    obtain ⟨hlimit, events, hevents, hapart, -⟩ := hrun
    have hparse := Program.parse_eq hs hr
    refine ⟨fun hd limit offset hv => ?_, ?_, rfl, hcalls⟩
    · rw [hparse] at hv
      exact hlimit hd limit offset (Program.aborted_of_answer hv)
    · have hall : s.events.reverse = events := by
        rw [hevents]
        exact (List.reverse_append).trans (List.reverse_reverse events)
      rw [hparse, hall]
      exact hapart

theorem Grammar.never_open_twice_peek :
    peekGrammar.Compiles .standard { cache := true } (peekParser true) ∧
    (peekParser true).rules.size * ("ab".utf8ByteSize + 1) ≤ 6 ∧
    ∀ limit offset, ((peekParser true).parse (Host.refusing : Host Unit Unit) () "ab"
      { maxDepth := 6 }).outcome ≠ .error (.nestingLimit limit offset) := by
  have hr : (peekParser true).rules.size * ("ab".utf8ByteSize + 1) ≤ 6 := by decide +kernel
  exact ⟨compiles_peekParser true, hr, (never_open_twice (compiles_peekParser true)
    (Host.refusing : Host Unit Unit) () "ab" { maxDepth := 6 }).1 hr⟩

end Peg
