import Peg.Proofs.Consumption
import Peg.Proofs.Replay

/-! Runs follow derivations. What is derived for a node from a cursor, labels and a memory is what
its matcher does in every state that has these, whatever else the state holds: the rest of it is
either not looked at, as the failures noted so far, or holds nothing but results that are derived
too, as the memo. -/
namespace Peg

variable {σ α ε : Type}

def Verdict.GoesOn : Verdict α ε → Prop
  | aborted _ => False
  | _ => True

/-- A rule has a result if its body goes on, and the labels of the body make no difference to it. -/
theorem Verdict.outcome_closed {v : Verdict α ε} (hv : v.GoesOn) :
    v.closed.outcome = Outcome.ofOption v.value? := by
  cases v with
  | matched value stop bound => rfl
  | failed => rfl
  | aborted e => exact False.elim hv

theorem Verdict.bound_closed (v : Verdict α ε) : v.closed.bound = [] := by
  cases v <;> rfl

theorem Verdict.goesOn_of_outcome {v : Verdict α ε} {result : Option (Value α)}
    (h : v.outcome = Outcome.ofOption result) : v.GoesOn ∧ result = v.value? := by
  cases v with
  | matched value stop bound => cases result <;> cases h; exact ⟨trivial, rfl⟩
  | failed => cases result <;> cases h; exact ⟨trivial, rfl⟩
  | aborted e => cases result <;> cases h

def Derivable (program : Program) (host : Host σ α ε) (id : RuleId) (c : Cursor)
    (result : RuleResult α) : Prop :=
  ∃ rule d h v log h', program.rules[id]? = some rule ∧
    Derives program.rules host d rule.node c [] h v log h' ∧ v.GoesOn ∧
    result = ⟨v.value?, v.stopFrom c⟩

namespace State

/-- The rules and offsets in `seen` are those for which a result is kept. -/
def Knows (program : Program) (seen : List (RuleId × Nat)) (s : State σ α) : Prop :=
  ∀ id offset, (id, offset) ∈ seen ↔
    program.cached = true ∧ (s.memo.find? id offset).isSome = true

/-- The state is at `c` with the labels `env`, its host remembers what goes together with `h`, and
the results in its memo, all derived, are those of `seen`. -/
structure Ready (program : Program) (host : Host σ α ε) (Like : σ → σ → Prop) (text : Cursor)
    (seen : List (RuleId × Nat)) (c : Cursor) (env : Scope α) (h : σ) (s : State σ α) :
    Prop where
  sound : s.Sound text (Derivable program host)
  knows : s.Knows program seen
  cursor : s.cursor = c
  scope : s.scope = env
  like : Like h s.host

/-- What is derived obeys the laws of what is kept. -/
theorem Ready.lawful {program : Program} {host : Host σ α ε} {Like : σ → σ → Prop} {text : Cursor}
    {seen : List (RuleId × Nat)} {c : Cursor} {env : Scope α} {h : σ} {s : State σ α}
    (hs : s.Ready program host Like text seen c env h) :
    s.Sound text (RuleResult.Lawful fun _ => false) := by
  refine ⟨hs.sound.inText, fun id c result hc hm => ?_⟩
  obtain ⟨rule, d, h, v, log, h', -, hd, hv, rfl⟩ := hs.sound.kept id c result hc hm
  refine ⟨hd.reaches, fun hn => ?_, nofun⟩
  cases v with
  | matched value stop bound => cases hn
  | failed => rfl
  | aborted e => exact False.elim hv

/-- What is ready at `c` is so with other labels too, in silence or not. -/
theorem Ready.rescope {program : Program} {host : Host σ α ε} {Like : σ → σ → Prop} {text : Cursor}
    {seen : List (RuleId × Nat)} {c : Cursor} {env : Scope α} {h : σ} {s : State σ α}
    (hs : s.Ready program host Like text seen c env h) {scope env' : Scope α}
    (he : scope = env') (muted : Bool) :
    ({ s with scope := scope, muted := muted } : State σ α).Ready program host Like text seen c
      env' h :=
  ⟨⟨hs.sound.inText, hs.sound.kept⟩, hs.knows, hs.cursor, he, hs.like⟩

/-- From `s` to `s'`, the calls and the failures of `log` have been noted. -/
structure Reports (log : List (Event α)) (s s' : State σ α) : Prop where
  calls : s'.calls = (Event.callsOf log).reverse ++ s.calls
  record : s'.record =
    if s.muted then s.record else s.record.noteAll (Event.failuresOf log)

theorem reports_nil (s : State σ α) : Reports [] s s :=
  ⟨rfl, by split <;> rfl⟩

theorem reports_append {log log' : List (Event α)} {s s' s'' : State σ α} (h : s.Reports log s')
    (hm : s'.muted = s.muted) (h' : s'.Reports log' s'') : s.Reports (log ++ log') s'' := by
  refine ⟨?_, ?_⟩
  · rw [h'.calls, h.calls, Event.callsOf_append, List.reverse_append, List.append_assoc]
  · rw [h'.record, hm, h.record, Event.failuresOf_append, Record.noteAll_append]
    split <;> rfl

/-- What happens in silence is only seen by its calls. -/
theorem reports_muted {log : List (Event α)} {s s' : State σ α}
    (h : ({ s with muted := true } : State σ α).Reports log s') : s.Reports [.muted log] s' := by
  refine ⟨?_, ?_⟩
  · rw [h.calls, Event.callsOf, Event.callsOf, Event.calls, List.append_nil]
  · rw [h.record, if_pos rfl]
    change s.record = if s.muted then s.record else s.record.noteAll []
    split <;> rfl

/-- What happens in a rule is all that the invocation shows. -/
theorem reports_invoked {log : List (Event α)} {s s' : State σ α} (h : s.Reports log s')
    (id : RuleId) (c : Cursor) : s.Reports [.invoked id c log] s' := by
  refine ⟨?_, ?_⟩
  · rw [h.calls, Event.callsOf, Event.callsOf, Event.calls, List.append_nil]
  · rw [h.record, Event.failuresOf, Event.failuresOf, Event.failures, List.append_nil]

theorem reports_called (call : Call α) (s : State σ α) (memory : σ) :
    s.Reports [.called call] { s with calls := call :: s.calls, host := memory } :=
  ⟨rfl, by split <;> rfl⟩

theorem reports_missed (expectation : ExpectationId) (s : State σ α) :
    s.Reports [.missed expectation s.cursor] (s.recordFailure expectation) := by
  refine ⟨?_, record_recordFailure expectation s⟩
  obtain ⟨furthest, expected, he⟩ := recordFailure_eq expectation s
  rw [he]
  rfl

end State

/-- The matcher does what is derived, in every state that is ready for it. -/
def Follows (program : Program) (host : Host σ α ε) (Like : σ → σ → Prop) (text c : Cursor)
    (env : Scope α) (h : σ) (v : Verdict α ε) (log : List (Event α)) (h' : σ) (m : Matcher σ α ε) :
    Prop :=
  ∀ (seen : List (RuleId × Nat)) (s : State σ α), s.Ready program host Like text seen c env h →
    ∃ s', m s = (v.outcome, s') ∧
      s.Reports (Event.unrepeatedAll program.cached seen log).1 s' ∧ Like h' s'.host ∧
      (v.GoesOn → s'.muted = s.muted ∧
        s'.Ready program host Like text (Event.unrepeatedAll program.cached seen log).2
          (v.stopFrom c) (v.bound ++ env) h')

section Matching

variable {program : Program} {host : Host σ α ε} {Like : σ → σ → Prop} {text c : Cursor}
  {env : Scope α} {h h' : σ} {v : Verdict α ε} {log : List (Event α)} {m : Matcher σ α ε}

/-- What makes another verdict of that of a matcher, and leaves the labels from before in scope with
those that it binds itself. -/
theorem Follows.scoped {v' : Verdict α ε} {m' : Matcher σ α ε}
    (hm : Follows program host Like text c env h v log h' m)
    (hstop : v'.stopFrom c = v.stopFrom c) (hgo : v'.GoesOn → v.GoesOn)
    (hi : ∀ s s' : State σ α, s.cursor = c → (v.GoesOn → s'.cursor = v.stopFrom c) →
      m s = (v.outcome, s') → m' s = (v'.outcome, { s' with scope := v'.bound ++ s.scope })) :
    Follows program host Like text c env h v' log h' m' := by
  intro seen s hs
  obtain ⟨s', he, hr, hl, hon⟩ := hm seen s hs
  refine ⟨_, hi s s' hs.cursor (fun hv => (hon hv).2.cursor) he, ⟨hr.calls, hr.record⟩, hl,
    fun hv => ?_⟩
  obtain ⟨hmuted, hs'⟩ := hon (hgo hv)
  rw [hstop]
  exact ⟨hmuted, hs'.rescope (by rw [hs.scope]) _⟩

namespace Matcher

theorem fail_follows (e : ExpectationId) :
    Follows program host Like text c env h .failed [.missed e c] h (fail e) := by
  intro seen s hs
  have hr := State.reports_missed e s
  obtain ⟨furthest, expected, he⟩ := State.recordFailure_eq e s
  rw [hs.cursor] at hr
  rw [Event.unrepeatedAll_singleton, Event.unrepeated]
  refine ⟨_, rfl, hr, ?_, fun _ => ?_⟩
  · rw [he]
    exact hs.like
  · rw [he]
    exact ⟨rfl, ⟨hs.sound.inText, hs.sound.kept⟩, hs.knows, hs.cursor, hs.scope, hs.like⟩

/-- A terminal that matches moves the cursor. -/
theorem follows_moved {stop : Cursor} (hc : c.Reaches stop) {value : Value α}
    (hm : ∀ s : State σ α, s.cursor = c → m s = (.matched value, { s with cursor := stop })) :
    Follows program host Like text c env h (.matched value stop []) [] h m := by
  intro seen s hs
  refine ⟨_, hm s hs.cursor, ?_, hs.like, fun _ => ⟨rfl, ⟨?_, hs.sound.kept⟩, hs.knows, rfl,
    hs.scope, hs.like⟩⟩
  · exact ⟨s.reports_nil.calls, s.reports_nil.record⟩
  · exact Cursor.reaches_trans hs.sound.inText (hs.cursor ▸ hc)

/-- A terminal that does not match fails. -/
theorem follows_missed {e : ExpectationId}
    (hm : ∀ s : State σ α, s.cursor = c → m s = fail e s) :
    Follows program host Like text c env h .failed [.missed e c] h m := by
  intro seen s hs
  rw [hm s hs.cursor]
  exact fail_follows e seen s hs

theorem literal_follows {matcher : LiteralMatcher} {e : ExpectationId} {stop : Cursor}
    (hm : matcher.matchAt c = some stop) :
    Follows program host Like text c env h
      (.matched
        (.str (if matcher.literal.ignoreCase then c.textTo stop else matcher.literal.text)) stop [])
      [] h (literal matcher e) := by
  refine follows_moved (LiteralMatcher.reaches_of_matchAt hm) fun s hc => ?_
  cases hc
  rw [literal, hm]
  rfl

theorem literal_missed_follows {matcher : LiteralMatcher} {e : ExpectationId}
    (hm : matcher.matchAt c = none) :
    Follows program host Like text c env h .failed [.missed e c] h (literal matcher e) := by
  refine follows_missed fun s hc => ?_
  cases hc
  rw [literal, hm]

theorem char_follows {accepts : Char → Bool} {e : ExpectationId} {a : Char}
    (hp : c.peek = some a) (ha : accepts a = true) :
    Follows program host Like text c env h (.matched (.str a.toString) c.next []) [] h
      (char accepts e) := by
  refine follows_moved (Cursor.reaches_next _) fun s hc => ?_
  cases hc
  rw [char, hp]
  exact if_pos ha

theorem char_missed_follows {accepts : Char → Bool} {e : ExpectationId}
    (ha : ∀ a, c.peek = some a → accepts a = false) :
    Follows program host Like text c env h .failed [.missed e c] h (char accepts e) := by
  refine follows_missed fun s hc => ?_
  cases hc
  unfold char
  split
  · rename_i a hp
    rw [ha a hp]
    rfl
  · rfl

theorem isolate_follows (hm : Follows program host Like text c env h v log h' m) :
    Follows program host Like text c env h v.closed log h' (isolate m) := by
  refine hm.scoped (v.stopFrom_closed c) (by cases v <;> exact id) fun s s' _ _ he => ?_
  cases v <;> exact isolate_eq he

theorem mapValue_isolate_follows
    (hm : Follows program host Like text c env h v log h' m) :
    Follows program host Like text c env h (v.asText c) log h'
      (mapValue (fun text _ => .str text) (isolate m)) := by
  refine hm.scoped (v.stopFrom_asText c) (by cases v <;> exact id) fun s s' hc hstop he => ?_
  have hi := mapValue_isolate_eq (fun text _ => .str text) he
  cases v with
  | matched value stop bound =>
    have ht : s.cursor.textTo s'.cursor = c.textTo stop := by
      rw [hc, hstop trivial]
      rfl
    rw [ht] at hi
    exact hi
  | failed => exact hi
  | aborted e => exact hi

theorem labeled_follows (label : String)
    (hm : Follows program host Like text c env h v log h' m) :
    Follows program host Like text c env h (v.labeled label) log h' (labeled label m) := by
  refine hm.scoped (v.stopFrom_labeled c label) (by cases v <;> exact id) fun s s' _ _ he => ?_
  have hi := labeled_eq label he
  cases v <;> exact hi

theorem optional_follows (hm : Follows program host Like text c env h v log h' m) :
    Follows program host Like text c env h (v.orNothing c) log h' (optional m) := by
  refine hm.scoped (v.stopFrom_orNothing c) (by cases v <;> exact id) fun s s' _ _ he => ?_
  have hi := optional_eq he
  cases v <;> exact hi

theorem ready_muted {seen : List (RuleId × Nat)} {s : State σ α}
    (hs : s.Ready program host Like text seen c env h) :
    ({ s with muted := true } : State σ α).Ready program host Like text seen c env h :=
  hs.rescope hs.scope true

theorem named_failed_follows (e : ExpectationId)
    (hm : Follows program host Like text c env h .failed log h' m) :
    Follows program host Like text c env h .failed [.muted log, .missed e c] h' (named e m) := by
  intro seen s hs
  obtain ⟨s', he, hr, hl, hon⟩ := hm seen _ (ready_muted hs)
  obtain ⟨-, hs'⟩ := hon trivial
  have hi := named_eq e he
  obtain ⟨s'', he', hr', hl', hon'⟩ := fail_follows e
    (Event.unrepeatedAll program.cached seen log).2 { s' with scope := s.scope, muted := s.muted }
    (hs'.rescope hs.scope s.muted)
  have hmuted : s.Reports [.muted (Event.unrepeatedAll program.cached seen log).1]
    { s' with scope := s.scope, muted := s.muted } := State.reports_muted ⟨hr.calls, hr.record⟩
  have hq := State.reports_append hmuted rfl hr'
  have hu := Event.unrepeatedAll_append program.cached seen [.muted log] [.missed e c]
  rw [Event.unrepeatedAll_singleton, Event.unrepeated] at hu
  rw [← List.singleton_append, hu]
  exact ⟨s'', hi.trans he', hq, hl', hon'⟩

theorem named_follows (e : ExpectationId) (hv : v ≠ .failed)
    (hm : Follows program host Like text c env h v log h' m) :
    Follows program host Like text c env h v.closed [.muted log] h' (named e m) := by
  intro seen s hs
  obtain ⟨s', he, hr, hl, hon⟩ := hm seen _ (ready_muted hs)
  have hi := named_eq e he
  rw [Event.unrepeatedAll_singleton, Event.unrepeated]
  cases v with
  | matched value stop bound =>
    obtain ⟨-, hs'⟩ := hon trivial
    exact ⟨_, hi, State.reports_muted ⟨hr.calls, hr.record⟩, hl,
      fun _ => ⟨rfl, hs'.rescope hs.scope s.muted⟩⟩
  | failed => exact False.elim (hv rfl)
  | aborted e => exact ⟨_, hi, State.reports_muted ⟨hr.calls, hr.record⟩, hl, False.elim⟩

theorem lookahead_follows (negated : Bool)
    (hm : Follows program host Like text c env h v log h' m) :
    Follows program host Like text c env h (v.seen negated c) [.muted log] h'
      (lookahead negated m) := by
  intro seen s hs
  obtain ⟨s', he, hr, hl, hon⟩ := hm seen _ (ready_muted hs)
  have hi := lookahead_eq negated he
  rw [Event.unrepeatedAll_singleton, Event.unrepeated]
  refine ⟨{ s' with cursor := s.cursor, scope := s.scope, muted := s.muted }, hi.trans ?_,
    State.reports_muted ⟨hr.calls, hr.record⟩, hl, fun hv => ?_⟩
  · cases v <;> cases negated <;> rfl
  · have hv' : v.GoesOn := by
      cases v with
      | aborted e => exact hv
      | matched value stop bound => trivial
      | failed => trivial
    obtain ⟨-, hs'⟩ := hon hv'
    rw [Verdict.stopFrom_seen, Verdict.bound_seen]
    exact ⟨rfl, ⟨hs.sound.inText, hs'.sound.kept⟩, hs'.knows, hs.cursor, hs.scope, hl⟩

theorem action_follows {code : String} {value : Value α} {stop : Cursor} {bound : Scope α}
    {h₁ : σ} {answer : Except (CodeError ε) (Value α)} (hl : host.Alike Like)
    (hm : Follows program host Like text c env h (.matched value stop bound) log h₁ m)
    (hc : host.action code ⟨c, stop, (bound ++ env).reverse, some value⟩ h₁ = (answer, h')) :
    Follows program host Like text c env h
      (match answer with
        | .ok result => .matched result stop []
        | .error e => .aborted (e.toParseError (⟨c, stop, (bound ++ env).reverse, some value⟩ :
          CodeContext α)))
      (log ++ [.called ⟨.action, code, ⟨c, stop, (bound ++ env).reverse, some value⟩⟩]) h'
      (action host code m) := by
  intro seen s hs
  obtain ⟨s', he, hr, hl₁, hon⟩ := hm seen s hs
  obtain ⟨hmuted, hs'⟩ := hon trivial
  have hi := action_eq host code he
  dsimp only [Verdict.outcome] at hi
  have hcontext : (⟨s.cursor, s'.cursor, s'.scope.reverse, some value⟩ : CodeContext α) =
      ⟨c, stop, (bound ++ env).reverse, some value⟩ := by
    rw [hs.cursor, hs'.cursor, hs'.scope]
    rfl
  obtain ⟨ha, hl'⟩ := hl.action code ⟨c, stop, (bound ++ env).reverse, some value⟩ h₁ s'.host hl₁
  rw [hc] at ha hl'
  rw [hcontext, ← ha] at hi
  have hu := Event.unrepeatedAll_append program.cached seen log
    [.called ⟨.action, code, ⟨c, stop, (bound ++ env).reverse, some value⟩⟩]
  rw [Event.unrepeatedAll_singleton, Event.unrepeated] at hu
  have hq := State.reports_append hr hmuted (State.reports_called
    ⟨.action, code, ⟨c, stop, (bound ++ env).reverse, some value⟩⟩ s'
    (host.action code ⟨c, stop, (bound ++ env).reverse, some value⟩ s'.host).2)
  rw [hu]
  cases answer with
  | ok result =>
    exact ⟨_, hi, ⟨hq.calls, hq.record⟩, hl', fun _ => ⟨hmuted,
      ⟨hs'.sound.inText, hs'.sound.kept⟩, hs'.knows, hs'.cursor, hs.scope, hl'⟩⟩
  | error e => exact ⟨_, hi, ⟨hq.calls, hq.record⟩, hl', False.elim⟩

theorem action_unmatched_follows (code : String) (hv : v.value? = none)
    (hm : Follows program host Like text c env h v log h' m) :
    Follows program host Like text c env h v log h' (action host code m) := by
  refine hm.scoped rfl id fun s s' _ _ he => ?_
  have hi := action_eq host code he
  cases v with
  | matched value stop bound => cases hv
  | failed => exact hi
  | aborted e => exact hi

theorem predicate_follows {code : String} {answer : Except (CodeError ε) Bool} (negated : Bool)
    (hl : host.Alike Like) (hc : host.predicate code ⟨c, c, env.reverse, none⟩ h = (answer, h')) :
    Follows program host Like text c env h
      (match answer with
        | .ok answer => if answer != negated then .matched .null c [] else .failed
        | .error e => .aborted (e.toParseError (⟨c, c, env.reverse, none⟩ : CodeContext α)))
      [.called ⟨.predicate, code, ⟨c, c, env.reverse, none⟩⟩] h'
      (predicate host negated code) := by
  intro seen s hs
  have hi := predicate_eq host negated code s
  dsimp only at hi
  have hcontext : (⟨s.cursor, s.cursor, s.scope.reverse, none⟩ : CodeContext α) =
      ⟨c, c, env.reverse, none⟩ := by
    rw [hs.cursor, hs.scope]
  obtain ⟨ha, hl'⟩ := hl.predicate code ⟨c, c, env.reverse, none⟩ h s.host hs.like
  rw [hc] at ha hl'
  rw [hcontext, ← ha] at hi
  have hq := State.reports_called ⟨.predicate, code, ⟨c, c, env.reverse, none⟩⟩ s
    (host.predicate code ⟨c, c, env.reverse, none⟩ s.host).2
  rw [Event.unrepeatedAll_singleton, Event.unrepeated]
  cases answer with
  | ok answer =>
    dsimp only at hi ⊢
    cases hd : answer != negated with
    | true =>
      rw [hd] at hi
      exact ⟨_, hi, hq, hl', fun _ => ⟨rfl, ⟨hs.sound.inText, hs.sound.kept⟩, hs.knows, hs.cursor,
        hs.scope, hl'⟩⟩
    | false =>
      rw [hd] at hi
      exact ⟨_, hi, hq, hl', fun _ => ⟨rfl, ⟨hs.sound.inText, hs.sound.kept⟩, hs.knows, hs.cursor,
        hs.scope, hl'⟩⟩
  | error e => exact ⟨_, hi, hq, hl', False.elim⟩

theorem repeated_done_follows (hm : Follows program host Like text c env h .failed log h' m) :
    Follows program host Like text c env h (.matched (.list []) c []) log h'
      (repeated false m) :=
  hm.scoped rfl (fun _ => trivial) fun _ _ _ _ he => repeated_failed he

theorem repeated_empty_follows {value : Value α} {bound : Scope α}
    (hm : Follows program host Like text c env h (.matched value c bound) log h' m) :
    Follows program host Like text c env h (.matched (.list [value]) c []) log h'
      (repeated false m) :=
  hm.scoped rfl id fun _ _ hc hstop he => repeated_empty he ((hstop trivial).trans hc.symm)

theorem repeated_aborted_follows {e : ParseError ε}
    (hm : Follows program host Like text c env h (.aborted e) log h' m) :
    Follows program host Like text c env h (.aborted e) log h' (repeated false m) :=
  hm.scoped rfl id fun _ _ _ _ he => repeated_aborted he

theorem repeated_round_follows (hrest : Restores text (RuleResult.Lawful fun _ => false) m)
    {value : Value α} {stop : Cursor} {bound : Scope α} {h₁ : σ} {log' : List (Event α)}
    (hm : Follows program host Like text c env h (.matched value stop bound) log h₁ m)
    (hstop : stop ≠ c)
    (hround : Follows program host Like text stop env h₁ v log' h' (repeated false m)) :
    Follows program host Like text c env h (v.behind value []) (log ++ log') h'
      (repeated false m) := by
  intro seen s hs
  obtain ⟨s', he, hr, hl, hon⟩ := hm seen s hs
  obtain ⟨hmuted, hs'⟩ := hon trivial
  obtain ⟨s'', he', hr', hl', hon'⟩ := hround _ { s' with scope := s.scope }
    (hs'.rescope hs.scope s'.muted)
  have hne : s'.cursor ≠ s.cursor := by
    rw [hs'.cursor, hs.cursor]
    exact hstop
  have hi := repeated_round hrest hs.lawful he hne he'
  have hreport : s.Reports (Event.unrepeatedAll program.cached seen log).1
    { s' with scope := s.scope } := ⟨hr.calls, hr.record⟩
  have hq := State.reports_append hreport hmuted hr'
  rw [Event.unrepeatedAll_append]
  cases v with
  | matched values stop' bound' =>
    obtain ⟨hmuted', hs''⟩ := hon' trivial
    refine ⟨s'', hi, hq, hl', fun _ => ⟨hmuted'.trans hmuted, hs''.sound, hs''.knows, hs''.cursor,
      ?_, hl'⟩⟩
    rw [hs''.scope]
    exact congrArg (· ++ env) (List.append_nil bound').symm
  | failed => exact False.elim (repeated_false_ne_failed he')
  | aborted e => exact ⟨s'', hi, hq, hl', False.elim⟩

theorem repeated_true_follows (hrest : Restores text (RuleResult.Lawful fun _ => false) m)
    (hm : Follows program host Like text c env h v log h' (repeated false m)) :
    Follows program host Like text c env h v.nonempty log h' (repeated true m) := by
  intro seen s hs
  obtain ⟨s', he, hr, hl, hon⟩ := hm seen s hs
  have hi := repeated_true_eq he
  cases v with
  | matched value stop bound =>
    obtain ⟨hmuted, hs'⟩ := hon trivial
    unfold Verdict.nonempty
    split
    · rename_i hv
      cases hv
      obtain ⟨hcursor, hscope⟩ := repeated_nil hrest hs.lawful he
      exact ⟨s', hi, hr, hl, fun _ => ⟨hmuted, hs'.sound, hs'.knows, hcursor.trans hs.cursor,
        hscope.trans hs.scope, hl⟩⟩
    · rename_i hv
      refine ⟨s', ?_, hr, hl, hon⟩
      rw [hi]
      cases value with
      | list values =>
        cases values with
        | nil => exact False.elim (hv _ _ rfl)
        | cons first values => rfl
      | null | str text | host a => rfl
  | failed => exact ⟨s', hi, hr, hl, hon⟩
  | aborted e => exact ⟨s', hi, hr, hl, hon⟩

end Matcher

namespace Node

variable {call : RuleId → Matcher σ α ε} {node : Node} {nodes : List Node}

theorem sequence_nil_follows :
    Follows program host Like text c env h (.matched (.list []) c []) [] h
      ((Node.sequence []).run host call) := by
  intro seen s hs
  exact ⟨s, run_sequence_nil host call s, s.reports_nil, hs.like, fun _ => ⟨rfl, hs⟩⟩

theorem sequence_cons_follows {value : Value α} {stop : Cursor} {bound : Scope α} {h₁ : σ}
    {log' : List (Event α)}
    (hm : Follows program host Like text c env h (.matched value stop bound) log h₁
      (node.run host call))
    (hn : Follows program host Like text stop (bound ++ env) h₁ v log' h'
      ((Node.sequence nodes).run host call)) :
    Follows program host Like text c env h (v.behind value bound) (log ++ log') h'
      ((Node.sequence (node :: nodes)).run host call) := by
  intro seen s hs
  obtain ⟨s', he, hr, hl, hon⟩ := hm seen s hs
  obtain ⟨hmuted, hs'⟩ := hon trivial
  obtain ⟨s'', he', hr', hl', hon'⟩ := hn _ s' hs'
  have hi := run_sequence_cons host call node nodes he
  dsimp only [Verdict.outcome] at hi
  rw [he'] at hi
  have hq := State.reports_append hr hmuted hr'
  rw [Event.unrepeatedAll_append]
  cases v with
  | matched values stop' bound' =>
    obtain ⟨hmuted', hs''⟩ := hon' trivial
    refine ⟨s'', hi, hq, hl', fun _ => ⟨hmuted'.trans hmuted, hs''.sound, hs''.knows, hs''.cursor,
      ?_, hl'⟩⟩
    rw [hs''.scope]
    exact (List.append_assoc bound' bound env).symm
  | failed =>
    obtain ⟨hmuted', hs''⟩ := hon' trivial
    exact ⟨_, hi, ⟨hq.calls, hq.record⟩, hl', fun _ => ⟨hmuted'.trans hmuted,
      ⟨hs.sound.inText, hs''.sound.kept⟩, hs''.knows, hs.cursor, hs.scope, hl'⟩⟩
  | aborted e => exact ⟨s'', hi, hq, hl', False.elim⟩

theorem sequence_failed_follows
    (hm : Follows program host Like text c env h .failed log h' (node.run host call)) :
    Follows program host Like text c env h .failed log h'
      ((Node.sequence (node :: nodes)).run host call) := by
  intro seen s hs
  obtain ⟨s', he, hr, hl, hon⟩ := hm seen s hs
  obtain ⟨hmuted, hs'⟩ := hon trivial
  exact ⟨_, run_sequence_cons host call node nodes he, ⟨hr.calls, hr.record⟩, hl, fun _ => ⟨hmuted,
    ⟨hs.sound.inText, hs'.sound.kept⟩, hs'.knows, hs.cursor, hs.scope, hl⟩⟩

theorem sequence_aborted_follows {e : ParseError ε}
    (hm : Follows program host Like text c env h (.aborted e) log h' (node.run host call)) :
    Follows program host Like text c env h (.aborted e) log h'
      ((Node.sequence (node :: nodes)).run host call) := by
  intro seen s hs
  obtain ⟨s', he, hr, hl, -⟩ := hm seen s hs
  exact ⟨_, run_sequence_cons host call node nodes he, hr, hl, False.elim⟩

theorem choice_nil_follows :
    Follows program host Like text c env h .failed [] h ((Node.choice []).run host call) := by
  intro seen s hs
  exact ⟨s, run_choice_nil host call s, s.reports_nil, hs.like, fun _ => ⟨rfl, hs⟩⟩

/-- An alternative that does not fail decides a choice. -/
theorem choice_first_follows (hv : v ≠ .failed)
    (hm : Follows program host Like text c env h v log h' (node.run host call)) :
    Follows program host Like text c env h v.closed log h'
      ((Node.choice (node :: nodes)).run host call) := by
  refine hm.scoped (v.stopFrom_closed c) (by cases v <;> exact id) fun s s' _ _ he => ?_
  have hi := run_choice_cons host call node nodes he
  cases v with
  | matched value stop bound => exact hi
  | failed => exact False.elim (hv rfl)
  | aborted e => exact hi

theorem choice_cons_follows {h₁ : σ} {log' : List (Event α)}
    (hm : Follows program host Like text c env h .failed log h₁ (node.run host call))
    (hn : Follows program host Like text c env h₁ v log' h'
      ((Node.choice nodes).run host call)) :
    Follows program host Like text c env h v (log ++ log') h'
      ((Node.choice (node :: nodes)).run host call) := by
  intro seen s hs
  obtain ⟨s', he, hr, hl, hon⟩ := hm seen s hs
  obtain ⟨hmuted, hs'⟩ := hon trivial
  obtain ⟨s'', he', hr', hl', hon'⟩ := hn _ { s' with scope := s.scope }
    (hs'.rescope hs.scope s'.muted)
  have hi := run_choice_cons host call node nodes he
  have hreport : s.Reports (Event.unrepeatedAll program.cached seen log).1
    { s' with scope := s.scope } := ⟨hr.calls, hr.record⟩
  have hq := State.reports_append hreport hmuted hr'
  rw [Event.unrepeatedAll_append]
  refine ⟨s'', hi.trans he', hq, hl', fun hv => ?_⟩
  obtain ⟨hmuted', hs''⟩ := hon' hv
  exact ⟨hmuted'.trans hmuted, hs''⟩

end Node

namespace Program

theorem knows_remember {seen : List (RuleId × Nat)} {s : State σ α}
    (hs : s.Knows program seen) (id : RuleId) (result : Option (Value α)) :
    (s.remember program id c result).Knows program
      (if program.cached then (id, c.offset) :: seen else seen) := by
  intro id' offset
  rw [State.remember_eq]
  dsimp only
  split
  · rename_i hc
    rw [Memo.find?_insert, List.mem_cons, hs id' offset]
    split
    · rename_i he
      exact ⟨fun _ => ⟨hc, rfl⟩, fun _ => Or.inl he.symm⟩
    · rename_i he
      exact ⟨fun h => h.resolve_left fun hk => he hk.symm, Or.inr⟩
  · exact hs id' offset

/-- What is kept for a rule is what is derived for it, as derivations are unique. -/
theorem kept_eq (hl : host.Alike Like) (hcached : program.cached = true → ∀ m n, Like m n)
    {id : RuleId} {rule : CompiledRule} (hr : program.rules[id]? = some rule) {d : Nat}
    (hd : Derives program.rules host d rule.node c [] h v log h') {seen : List (RuleId × Nat)}
    {s : State σ α} (hs : s.Ready program host Like text seen c env h) {result : RuleResult α}
    (hm : s.memoized? program id = some result) :
    program.cached = true ∧ (id, c.offset) ∈ seen ∧ v.GoesOn ∧
      result = ⟨v.value?, v.stopFrom c⟩ := by
  obtain ⟨hc, hfind⟩ := State.memoized?_eq_some.mp hm
  obtain ⟨found, d₁, h₁, v₁, log₁, h₁', hf, hd₁, hv₁, rfl⟩ :=
    hs.sound.kept id s.cursor result hs.sound.inText hfind
  cases hr.symm.trans hf
  rw [hs.cursor] at hd₁ hfind ⊢
  obtain ⟨rfl, -, -⟩ := hd.unique hl (hcached hc h h₁) hd₁
  refine ⟨hc, ?_, hv₁, rfl⟩
  rw [hs.knows id c.offset, hfind]
  exact ⟨hc, rfl⟩

theorem not_mem_of_memoized?_eq_none {seen : List (RuleId × Nat)} {s : State σ α}
    (hs : s.Ready program host Like text seen c env h) {id : RuleId}
    (hm : s.memoized? program id = none) : (id, c.offset) ∉ seen := by
  intro hk
  obtain ⟨hc, hi⟩ := (hs.knows id c.offset).mp hk
  obtain ⟨result, hfind⟩ := Option.isSome_iff_exists.mp hi
  rw [← hs.cursor] at hfind
  cases hm.symm.trans (State.memoized?_eq_some.mpr ⟨hc, hfind⟩)

/-- Behind a rule that is done, its result is kept, and the labels are the ones from before it. -/
theorem ready_remember {seen seen' : List (RuleId × Nat)} {s t : State σ α}
    (hs : s.Ready program host Like text seen c env h)
    (ht : t.Ready program host Like text seen' (v.stopFrom c) (v.bound ++ []) h') {id : RuleId}
    {rule : CompiledRule} (hr : program.rules[id]? = some rule) {d : Nat}
    (hd : Derives program.rules host d rule.node c [] h v log h') (hv : v.GoesOn)
    (events : List TraceEvent) :
    ({ ({ t with scope := s.scope } : State σ α).remember program id s.cursor v.value? with
      events := events } : State σ α).Ready program host Like text
      (if program.cached then (id, c.offset) :: seen' else seen') (v.closed.stopFrom c)
      (v.closed.bound ++ env) h' := by
  have hkept : Derivable program host id s.cursor ⟨v.value?, t.cursor⟩ :=
    ⟨rule, d, h, v, log, h', hr, hs.cursor ▸ hd, hv, by rw [ht.cursor, hs.cursor]⟩
  have hsound := State.sound_remember program (s := { t with scope := s.scope })
    ⟨ht.sound.inText, ht.sound.kept⟩ hs.sound.inText hkept
  have hknows := knows_remember (c := c) (s := { t with scope := s.scope }) ht.knows id v.value?
  rw [State.remember_eq] at hsound hknows ⊢
  rw [hs.cursor] at hsound ⊢
  rw [Verdict.stopFrom_closed, Verdict.bound_closed]
  exact ⟨⟨hsound.inText, hsound.kept⟩, hknows, ht.cursor, hs.scope, ht.like⟩

/-- A rule does what its body does, or gives again what the body came to before. -/
theorem invoke_follows (hl : host.Alike Like)
    (hcached : program.cached = true → ∀ m n, Like m n) (limit : Nat) {depth : Nat} {id : RuleId}
    {rule : CompiledRule} (hr : program.rules[id]? = some rule) {d : Nat}
    (hd : Derives program.rules host d rule.node c [] h v log h')
    (hb : Follows program host Like text c [] h v log h'
      (rule.node.run host (program.invoke host limit depth))) :
    Follows program host Like text c env h v.closed [.invoked id c log] h'
      (program.invoke host limit (depth + 1) id) := by
  intro seen s hs
  rw [Event.unrepeatedAll_singleton, Event.unrepeated]
  rcases he : program.invoke host limit (depth + 1) id s with ⟨o, s'⟩
  rcases invoke_cases program host limit he with ⟨hn, -, -⟩ |
    ⟨found, result, events, -, hm, rfl, rfl⟩ | ⟨-, -, -, hz, -⟩ |
    ⟨found, depth', o', t, events, hf, hm, hz, hrun, hend⟩
  · cases hr.symm.trans hn
  · obtain ⟨hc, hmem, hv, rfl⟩ := kept_eq hl hcached hr hd hs hm
    have hreach := Cursor.reaches_trans (hs.cursor ▸ hs.sound.inText) hd.reaches
    rw [if_pos hmem, Verdict.outcome_closed hv, Verdict.stopFrom_closed, Verdict.bound_closed]
    exact ⟨{ s with cursor := v.stopFrom c, events := events }, rfl,
      ⟨s.reports_nil.calls, s.reports_nil.record⟩, hcached hc _ _, fun _ => ⟨rfl,
      ⟨hreach, hs.sound.kept⟩, hs.knows, rfl, hs.scope, hcached hc _ _⟩⟩
  · cases hz
  · cases hr.symm.trans hf
    cases hz
    rw [if_neg (not_mem_of_memoized?_eq_none hs hm)]
    obtain ⟨t', ht, hrep, hlike, hon⟩ := hb seen { s with scope := [], events := events }
      ⟨⟨hs.sound.inText, hs.sound.kept⟩, hs.knows, hs.cursor, rfl, hs.like⟩
    cases hrun.symm.trans ht
    have hinner : s.Reports (Event.unrepeatedAll program.cached seen log).1 t :=
      ⟨hrep.calls, hrep.record⟩
    have hreport := State.reports_invoked hinner id c
    rcases hend with ⟨e, ho, rfl, rfl⟩ | ⟨result, events', ho, rfl, rfl⟩
    · cases v with
      | matched value stop bound => cases ho
      | failed => cases ho
      | aborted e' =>
        cases ho
        exact ⟨_, rfl, ⟨hreport.calls, hreport.record⟩, hlike, False.elim⟩
    · obtain ⟨hgo, rfl⟩ := Verdict.goesOn_of_outcome ho
      obtain ⟨hmuted, hready⟩ := hon hgo
      have hready' := ready_remember hs hready hr hd hgo events'
      rw [Verdict.outcome_closed hgo]
      rw [State.remember_eq] at hready' ⊢
      exact ⟨_, rfl, ⟨hreport.calls, hreport.record⟩, hlike, fun _ => ⟨hmuted, hready'⟩⟩

/-- Whatever is derived for a node happens when it is run, if as many rules may be open. -/
theorem follows_of_derives (hl : host.Alike Like)
    (hcached : program.cached = true → ∀ m n, Like m n) (limit : Nat) {d depth : Nat}
    (hdepth : d ≤ depth) {node : Node} (hd : Derives program.rules host d node c env h v log h') :
    Follows program host Like text c env h v log h'
      (node.run host (program.invoke host limit depth)) := by
  have hrest (node : Node) :
      Restores text (RuleResult.Lawful fun _ => false)
        (node.run host (program.invoke host limit depth)) :=
    Node.run_restores host (program.invoke_restores host limit depth) node
  -- There is one lemma for each rule. Only a reference takes up depth: the body is derived and run
  -- with one level less.
  induction hd generalizing depth with
  | literal hm => rw [Node.run]; exact Matcher.literal_follows hm
  | literal_missed hm => rw [Node.run]; exact Matcher.literal_missed_follows hm
  | charClass hp ha => rw [Node.run]; exact Matcher.char_follows hp ha
  | charClass_missed ha => rw [Node.run]; exact Matcher.char_missed_follows ha
  | any hp => rw [Node.run]; exact Matcher.char_follows hp rfl
  | any_missed hp =>
    rw [Node.run]
    refine Matcher.char_missed_follows fun a ha => ?_
    cases hp.symm.trans ha
  | ruleRef hr body ih =>
    obtain ⟨depth, rfl⟩ := Nat.exists_eq_add_of_le' (Nat.le_trans (Nat.le_add_left 1 _) hdepth)
    rw [Node.run]
    exact invoke_follows hl hcached limit hr body (ih (Nat.le_of_succ_le_succ hdepth)
      fun node => Node.run_restores host (program.invoke_restores host limit depth) node)
  | predicate hc => rw [Node.run]; exact Matcher.predicate_follows _ hl hc
  | predicate_error hc => rw [Node.run]; exact Matcher.predicate_follows _ hl hc
  | sequence_nil => exact Node.sequence_nil_follows
  | sequence_cons _ _ ihf ihr =>
    exact Node.sequence_cons_follows (ihf hdepth hrest) (ihr hdepth hrest)
  | sequence_failed _ ih => exact Node.sequence_failed_follows (ih hdepth hrest)
  | sequence_aborted _ ih => exact Node.sequence_aborted_follows (ih hdepth hrest)
  | choice_nil => exact Node.choice_nil_follows
  | choice_matched _ ih =>
    refine Node.choice_first_follows ?_ (ih hdepth hrest)
    intro hv
    cases hv
  | choice_cons _ _ ihf ihr => exact Node.choice_cons_follows (ihf hdepth hrest) (ihr hdepth hrest)
  | choice_aborted _ ih =>
    refine Node.choice_first_follows ?_ (ih hdepth hrest)
    intro hv
    cases hv
  | labeled _ ih => rw [Node.run]; exact Matcher.labeled_follows _ (ih hdepth hrest)
  | named_failed _ ih => rw [Node.run]; exact Matcher.named_failed_follows _ (ih hdepth hrest)
  | named _ hv ih => rw [Node.run]; exact Matcher.named_follows _ hv (ih hdepth hrest)
  | action _ hc ih => rw [Node.run]; exact Matcher.action_follows hl (ih hdepth hrest) hc
  | action_error _ hc ih => rw [Node.run]; exact Matcher.action_follows hl (ih hdepth hrest) hc
  | action_failed _ ih | action_aborted _ ih =>
    rw [Node.run]
    exact Matcher.action_unmatched_follows _ rfl (ih hdepth hrest)
  | text _ ih => rw [Node.run]; exact Matcher.mapValue_isolate_follows (ih hdepth hrest)
  | optional _ ih => rw [Node.run]; exact Matcher.optional_follows (ih hdepth hrest)
  | zeroOrMore_done _ ih => rw [Node.run]; exact Matcher.repeated_done_follows (ih hdepth hrest)
  | zeroOrMore_empty _ ih => rw [Node.run]; exact Matcher.repeated_empty_follows (ih hdepth hrest)
  | zeroOrMore_round _ hs _ ihi ihr =>
    have hround := ihr hdepth hrest
    rw [Node.run] at hround ⊢
    exact Matcher.repeated_round_follows (hrest _) (ihi hdepth hrest) hs hround
  | zeroOrMore_aborted _ ih =>
    rw [Node.run]
    exact Matcher.repeated_aborted_follows (ih hdepth hrest)
  | oneOrMore _ ih =>
    have hrounds := ih hdepth hrest
    rw [Node.run] at hrounds ⊢
    exact Matcher.repeated_true_follows (hrest _) hrounds
  | group _ ih => rw [Node.run]; exact Matcher.isolate_follows (ih hdepth hrest)
  | followedBy _ ih => rw [Node.run]; exact Matcher.lookahead_follows false (ih hdepth hrest)
  | notFollowedBy _ ih => rw [Node.run]; exact Matcher.lookahead_follows true (ih hdepth hrest)

end Program

end Matching

end Peg
