import Peg.Proofs.Evaluation
import Peg.Proofs.Growth
import Peg.Proofs.Redirection

/-! Results that are kept for good. Without left recursion, the body of a rule does not lead back to
the rule where that was entered, so that its result is kept where none is. So what is kept at any
moment of a parse is what is kept at its end. -/
namespace Peg

variable {σ α ε : Type} {text : Cursor} {Kept : RuleId → Cursor → RuleResult α → Prop}
  {g : Growth α}

namespace Node

variable {host : Host σ α ε} {call : RuleId → Matcher σ α ε}

/-- Behind the elements in front, the rest of a sequence is run as a sequence. -/
theorem runSequence_append {front : List Node} (back : List Node) {s t : State σ α}
    {values : List (Value α)} (h : runSequence host call front s = (.matched values, t)) :
    (runSequence host call (front ++ back) s).2 = (runSequence host call back t).2 := by
  induction front generalizing s values with
  | nil =>
    rw [runSequence] at h
    cases h
    rfl
  | cons node front ih =>
    rw [runSequence] at h
    rw [List.cons_append, runSequence]
    rcases hv : node.run host call s with ⟨o, u⟩
    rw [hv] at h
    cases o with
    | failed | aborted => cases h
    | matched value =>
      dsimp only at h ⊢
      rcases hrest : runSequence host call front u with ⟨o, u'⟩
      rw [hrest] at h
      cases o with
      | failed | aborted => cases h
      | matched rest =>
        cases h
        rw [← ih hrest]
        rcases runSequence host call (front ++ back) u with ⟨o, u'⟩
        cases o <;> rfl

theorem trail_run_sequence (nodes : List Node) (s : State σ α) :
    ((Node.sequence nodes).run host call s).2.trail =
      (runSequence host call nodes s).2.trail := by
  rw [run]
  dsimp only
  rcases runSequence host call nodes s with ⟨o, t⟩
  cases o <;> rfl

/-- Behind the alternatives in front, the rest of a choice is run as a choice. -/
theorem runChoice_append {front : List Node} (back : List Node) {s t : State σ α}
    (h : runChoice host call front s = (.failed, t)) :
    runChoice host call (front ++ back) s = runChoice host call back t := by
  induction front generalizing s with
  | nil =>
    rw [runChoice] at h
    cases h
    rfl
  | cons node front ih =>
    rw [runChoice] at h
    rw [List.cons_append, runChoice]
    rcases hv : Matcher.isolate (node.run host call) s with ⟨o, u⟩
    rw [hv] at h
    cases o with
    | failed => exact ih h
    | matched | aborted => cases h

/-- From each round on, a repetition goes on as if it began there. -/
theorem Enters.repeated_snd (hr : ∀ id, Restores text Kept (call id)) {operator : Operator}
    {body node' : Node} {s s' : State σ α} {i : Nat}
    (ho : operator = .zeroOrMore ∨ operator = .oneOrMore)
    (h : (Node.wrapped operator body).Enters host call s i node' s') (hs : s.Sound text Kept) :
    ((body.run host call).repeated false s').2.trail =
      ((body.run host call).repeated false s).2.trail := by
  generalize hn : Node.wrapped operator body = node at h
  induction h with
  | element | alternative => cases hn
  | inside =>
    cases hn
    rcases ho with rfl | rfl <;> rfl
  | @again operator body s s' t value _ entered matched moved ih =>
    cases hn
    have hround := Matcher.repeated_round (run_restores host hr body) (entered.sound hr hs) matched
      (fun he => moved (congrArg Cursor.offset he)) (Prod.eta _).symm
    rw [← ih hs rfl, hround]

/-- What a round leaves behind is still there behind the repetition that goes on from it. -/
theorem round_grows (hr : ∀ id, Restores text Kept (call id))
    (hg : ∀ id, Keeps text Kept g.contract 0 (call id)) {operator : Operator} {body : Node}
    {s s' : State σ α} (ho : operator = .zeroOrMore ∨ operator = .oneOrMore)
    (he : ((body.run host call).repeated false s').2.trail =
      ((body.run host call).repeated false s).2.trail) (hs' : s'.Sound text Kept) :
    g.Le (body.run host call s').2.trail
      ((Node.wrapped operator body).run host call s).2.trail := by
  have hgrows := Matcher.repeatWithin_grows (run_restores host hr body)
    (run_keeps_of_all host hr hg body) s'.cursor.rest hs'
  rw [← Matcher.repeated_snd false, he] at hgrows
  rcases ho with rfl | rfl
  · exact hgrows
  · rw [run, Operator.run, Matcher.repeated_snd, ← Matcher.repeated_snd false]
    exact hgrows

/-- What a part leaves behind is still there behind the node. -/
theorem Enters.grows (hr : ∀ id, Restores text Kept (call id))
    (hg : ∀ id, Keeps text Kept g.contract 0 (call id)) {node node' : Node} {s s' : State σ α}
    {i : Nat} (h : node.Enters host call s i node' s') (hs : s.Sound text Kept) :
    g.Le (node'.run host call s').2.trail (node.run host call s).2.trail := by
  have hs' := h.sound hr hs
  cases h with
  | element before =>
    rw [trail_run_sequence, runSequence_append _ before, ← trail_run_sequence]
    exact sequence_grows host hr hg _ _ hs'
  | @alternative _ _ back _ _ before =>
    have hgrows := choice_grows host hr hg node' back hs'
    rw [run] at hgrows ⊢
    rw [runChoice_append _ before]
    exact hgrows
  | @inside operator body =>
    by_cases hz : operator = .zeroOrMore
    · exact round_grows hr hg (Or.inl hz) (by subst hz; rfl) hs'
    · by_cases ho : operator = .oneOrMore
      · exact round_grows hr hg (Or.inr ho) (by subst ho; rfl) hs'
      · rw [run, (Operator.run_trail host hz ho (Prod.eta _).symm).1]
        exact g.refl _
  | again repeats entered matched moved =>
    exact round_grows hr hg repeats
      (Enters.repeated_snd hr repeats (.again repeats entered matched moved) hs) hs'

end Node

namespace Program

variable {program : Program} {rule : RuleId → Bool} {calls : String → String → Prop}
  {host : Host σ α ε} {limit depth : Nat} {id : RuleId} {found : CompiledRule}

/-- The body of a rule keeps no result of the rule where that was entered. -/
theorem body_spares_itself (hg : program.Guarded rule calls) (hr : program.rules[id]? = some found)
    {s t : State σ α} (hs : s.Sound text (RuleResult.Lawful rule)) {o : Outcome ε (Value α)}
    (hb : found.node.run host (program.invoke host limit depth) s = (o, t)) :
    t.memo.find? id s.cursor.offset = s.memo.find? id s.cursor.offset := by
  have hspared := body_spares host hg
    (fun id => invoke_gives program host limit hg.consumes depth id)
    (fun q called hq ha => invoke_spares host hg hr limit depth hq ha) hr
    (Nat.le_refl s.cursor.offset)
    (fun _ next hn hnext => hg.acyclic found.name (.head' hn hnext)) s hs (Nat.le_refl _)
  rw [hb] at hspared
  exact hspared

theorem memo_entering (s : State σ α) (found : CompiledRule) :
    (s.entering program found).memo = s.memo := by
  obtain ⟨events, he⟩ := State.trace_eq program .enter found s.cursor s.cursor s
  rw [State.entering, he]

theorem cursor_entering (s : State σ α) (found : CompiledRule) :
    (s.entering program found).cursor = s.cursor := by
  obtain ⟨events, he⟩ := State.trace_eq program .enter found s.cursor s.cursor s
  rw [State.entering, he]

/-- Where a rule is run anew, nothing is kept of it behind its body either. -/
theorem unkept_behind_body (hg : program.Guarded rule calls)
    (hr : program.rules[id]? = some found) {s t : State σ α}
    (hs : s.Sound text (RuleResult.Lawful rule)) (hon : program.cached = true)
    (hm : s.memoized? program id = none) {o : Outcome ε (Value α)}
    (hb : found.node.run host (program.invoke host limit depth) (s.entering program found) =
      (o, t)) : t.memo.find? id s.cursor.offset = none := by
  have hspared := body_spares_itself hg hr (hs.entering program found) hb
  rw [cursor_entering, memo_entering] at hspared
  rw [State.memoized?, if_pos hon] at hm
  exact hspared.trans hm

/-- So the result of the rule only adds to what is kept behind its body. -/
theorem invoke_grows_body (hg : program.Guarded rule calls) (hr : program.rules[id]? = some found)
    {s : State σ α} (hs : s.Sound text (RuleResult.Lawful rule))
    (hm : s.memoized? program id = none) :
    Growth.ofResults.Le
      (found.node.run host (program.invoke host limit depth) (s.entering program found)).2.trail
      (program.invoke host limit (depth + 1) id s).2.trail := by
  rcases hb : found.node.run host (program.invoke host limit depth) (s.entering program found)
    with ⟨o, t⟩
  obtain ⟨result, rfl⟩ | ⟨e, rfl⟩ := o.ended_or_aborted
  · rw [invoke_ended program host limit hr hm hb]
    intro id' offset kept hf
    obtain ⟨events, he⟩ := State.leave_eq program found s.cursor result
      (({ t with scope := s.scope } : State σ α).remember program id s.cursor result)
    rw [he, State.remember_eq]
    dsimp only [State.trail]
    split
    · -- To give way, a result would have to be kept of this rule behind its body, and none is.
      rename_i hon
      rw [Memo.find?_insert, if_neg]
      · exact hf
      · intro he
        obtain ⟨rfl, rfl⟩ := Prod.mk.inj he
        cases (unkept_behind_body hg hr hs hon hm hb).symm.trans hf
    · exact hf
  · rw [invoke_aborted program host limit hr hm hb]
    exact Growth.ofResults.refl _

/-- To invoke a rule adds to what is kept. -/
theorem invoke_grows (hg : program.Guarded rule calls) (limit depth : Nat) (id : RuleId) :
    Keeps text (RuleResult.Lawful rule) Growth.ofResults.contract 0
      (program.invoke host limit depth id) := by
  induction depth using Nat.strongRecOn generalizing id with
  | _ depth ih =>
    intro s hs _
    rcases h : program.invoke host limit depth id s with ⟨o, s'⟩
    rcases invoke_cases program host limit h with ⟨-, -, rfl⟩ |
      ⟨found, result, events, -, -, -, rfl⟩ | ⟨found, -, -, -, -, rfl⟩ |
      ⟨found, depth', -, -, -, hr, hm, rfl, -, -⟩
    · exact Growth.ofResults.refl _
    · exact Growth.ofResults.refl _
    · obtain ⟨events, he⟩ := State.trace_eq program .enter found s.cursor s.cursor s
      rw [he]
      exact Growth.ofResults.refl _
    · have hbody := found.node.run_keeps_of_all host
        (fun id => restores_of_gives (invoke_gives program host limit hg.consumes depth' id))
        (fun id => ih depth' (Nat.lt_succ_self _) id) (s.entering program found)
        (hs.entering program found) (Nat.zero_le _)
      rw [← h]
      refine Growth.ofResults.trans ?_
        (Growth.ofResults.trans hbody (invoke_grows_body hg hr hs hm))
      intro id' offset kept hf
      rwa [State.trail, memo_entering]

variable {start : RuleId} {path : List Nat} {node : Node} {first s : State σ α}

/-- What is kept behind a node that is run in a parse is kept at the end of the parse. -/
theorem Runs.grows (hg : program.Guarded rule calls)
    (hfirst : first.Sound text (RuleResult.Lawful rule))
    (h : program.Runs host limit start first depth id path node s) :
    Growth.ofResults.Le (node.run host (program.invoke host limit depth) s).2.trail
      (program.invoke host limit limit start first).2.trail := by
  -- On the way to the node: what it leaves is still there behind the part it is in, and so on up to
  -- the start rule.
  induction h with
  | start enough found new =>
    subst enough
    exact invoke_grows_body hg found hfirst new
  | part here entered ih =>
    refine Growth.ofResults.trans (entered.grows
      (fun id => restores_of_gives (invoke_gives program host limit hg.consumes _ id))
      (fun id => invoke_grows hg limit _ id) (here.sound hg.consumes hfirst)) ih
  | call here found new ih =>
    refine Growth.ofResults.trans
      (invoke_grows_body hg found (here.sound hg.consumes hfirst) new) ?_
    rwa [Node.run] at ih

/-- The run of the rule `start` from the state `first` comes by the invocation of the rule in the
state, where `depth` more rules may be open. -/
inductive InvokedAt (program : Program) (host : Host σ α ε) (limit : Nat) (start : RuleId)
    (first : State σ α) : Nat → RuleId → State σ α → Prop
  | start : InvokedAt program host limit start first limit start first
  | inside {depth id path called s}
      (here : program.Runs host limit start first depth id path (.ruleRef called) s) :
      InvokedAt program host limit start first depth called s

/-- What is kept behind a rule that is invoked in a parse is kept at the end of the parse. -/
theorem InvokedAt.grows (hg : program.Guarded rule calls)
    (hfirst : first.Sound text (RuleResult.Lawful rule))
    (h : program.InvokedAt host limit start first depth id s) :
    Growth.ofResults.Le (program.invoke host limit depth id s).2.trail
      (program.invoke host limit limit start first).2.trail := by
  cases h with
  | start => exact Growth.ofResults.refl _
  | inside here =>
    have hgrows := here.grows hg hfirst
    rwa [Node.run] at hgrows

/-- Behind a rule that has been invoked, its result is kept where it was invoked; and if one was
kept there before, no code has run. -/
theorem invoke_result_kept (hon : program.cached = true) (hr : program.rules[id]? = some found)
    {s' : State σ α} {result : Option (Value α)}
    (h : program.invoke host limit depth id s = (Outcome.ofOption result, s')) :
    s'.memo.find? id s.cursor.offset = some ⟨result, s'.cursor⟩ ∧
      (s.memo.find? id s.cursor.offset = none ∨ s'.calls = s.calls ∧ s'.host = s.host) := by
  refine ⟨find?_of_invoke program host limit hon hr h, ?_⟩
  rcases invoke_cases program host limit h with ⟨hnone, -, -⟩ | ⟨-, -, -, -, -, -, rfl⟩ |
    ⟨-, -, -, -, ho, -⟩ | ⟨-, -, -, -, -, -, hm, -, -, -⟩
  · cases hnone.symm.trans hr
  · exact Or.inr ⟨rfl, rfl⟩
  · exact absurd ho (Outcome.ofOption_ne_aborted result _)
  · rw [State.memoized?, if_pos hon] at hm
    exact Or.inl hm

/-- What is kept in the run of the rule `start` from the state `first`. -/
structure Retains (program : Program) (host : Host σ α ε) (limit : Nat) (start : RuleId)
    (first : State σ α) : Prop where
  /-- What is kept where the run comes by is still kept at its end. -/
  stays : ∀ {depth id path node s}, program.Runs host limit start first depth id path node s →
    ∀ id' offset kept, s.memo.find? id' offset = some kept →
      (program.invoke host limit limit start first).2.memo.find? id' offset = some kept
  /-- Behind the body of a rule, nothing is kept of it yet. -/
  unkept : ∀ {depth id node s}, program.Runs host limit start first depth id [] node s →
    (node.run host (program.invoke host limit depth) s).2.memo.find? id s.cursor.offset = none
  /-- Wherever a rule is invoked, it comes to what is kept of it in the end; and if something was
  kept of it there before, no code is run. -/
  same : ∀ {depth id s s' result}, program.InvokedAt host limit start first depth id s →
    id < program.rules.size → program.invoke host limit depth id s = (Outcome.ofOption result, s') →
    (program.invoke host limit limit start first).2.memo.find? id s.cursor.offset =
        some ⟨result, s'.cursor⟩ ∧
      (s.memo.find? id s.cursor.offset = none ∨ s'.calls = s.calls ∧ s'.host = s.host)

/-- Without left recursion, results are kept for good. -/
theorem retains (hg : program.Guarded rule calls) (hon : program.cached = true)
    (hfirst : first.Sound text (RuleResult.Lawful rule)) :
    program.Retains host limit start first where
  stays {depth id path node s} h id' offset kept hf := by
    refine h.grows hg hfirst id' offset kept ?_
    exact node.run_keeps_of_all host
      (fun id => restores_of_gives (invoke_gives program host limit hg.consumes depth id))
      (fun id => invoke_grows hg limit depth id) s (h.sound hg.consumes hfirst) (Nat.zero_le _)
      id' offset kept hf
  unkept {depth id node s} h := by
    generalize hpath : ([] : List Nat) = path at h
    cases h with
    | start _ found new =>
      rw [cursor_entering]
      exact unkept_behind_body hg found hfirst hon new rfl
    | part => exact absurd hpath (List.append_ne_nil_of_right_ne_nil _ (List.cons_ne_nil _ _)).symm
    | call here found new =>
      rw [cursor_entering]
      exact unkept_behind_body hg found (here.sound hg.consumes hfirst) hon new rfl
  same {depth id s s' result} h hlt hrun := by
    obtain ⟨hkept, hquiet⟩ := invoke_result_kept hon (Array.getElem?_eq_getElem hlt) hrun
    refine ⟨h.grows hg hfirst id s.cursor.offset _ ?_, hquiet⟩
    rw [hrun]
    exact hkept

end Program
end Peg
