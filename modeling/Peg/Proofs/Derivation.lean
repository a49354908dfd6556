import Peg.Proofs.Cursor
import Peg.Proofs.Steps

/-! What matching means, told without a state: the cursor and the labels in scope are given, and a
derivation says how the match ends and what happens on the way. Only what the host remembers is
handed on from one step to the next. -/
namespace Peg

variable {σ α ε : Type}

/-- How a match ends: with a value, the cursor behind it and the labels that it binds, innermost
first; without a match; or with the end of the parse. -/
inductive Verdict (α ε : Type) where
  | matched (value : Value α) (stop : Cursor) (bound : Scope α)
  | failed
  | aborted (e : ParseError ε)

namespace Verdict

/-- The labels stay inside. -/
def closed : Verdict α ε → Verdict α ε
  | matched value stop _ => .matched value stop []
  | v => v

def labeled (label : String) : Verdict α ε → Verdict α ε
  | matched value stop _ => .matched value stop [(label, value)]
  | v => v

def asText (start : Cursor) : Verdict α ε → Verdict α ε
  | matched _ stop _ => .matched (.str (start.textTo stop)) stop []
  | v => v

/-- What is missing counts as a match of nothing. -/
def orNothing (start : Cursor) : Verdict α ε → Verdict α ε
  | matched value stop _ => .matched value stop []
  | failed => .matched .null start []
  | aborted e => .aborted e

/-- A match, or its absence if `negated`, is seen from `start` without moving. -/
def seen (negated : Bool) (start : Cursor) : Verdict α ε → Verdict α ε
  | matched .. => if negated then .failed else .matched .null start []
  | failed => if negated then .matched .null start [] else .failed
  | aborted e => .aborted e

/-- The verdict on a list of which `value` is the first item and binds `bound`, the rest of the list
having this one. -/
def behind (value : Value α) (bound : Scope α) : Verdict α ε → Verdict α ε
  | matched values stop inner => .matched (value.cons values) stop (inner ++ bound)
  | v => v

/-- A list without items counts as a failure. -/
def nonempty : Verdict α ε → Verdict α ε
  | matched (.list []) _ _ => .failed
  | v => v

/-- Where to go on: behind a match, and where it was tried otherwise. -/
def stopFrom (start : Cursor) : Verdict α ε → Cursor
  | matched _ stop _ => stop
  | _ => start

def value? : Verdict α ε → Option (Value α)
  | matched value .. => some value
  | _ => none

def bound : Verdict α ε → Scope α
  | matched _ _ bound => bound
  | _ => []

def outcome : Verdict α ε → Outcome ε (Value α)
  | matched value .. => .matched value
  | failed => .failed
  | aborted e => .aborted e

variable (v : Verdict α ε) (c : Cursor)

theorem stopFrom_closed : v.closed.stopFrom c = v.stopFrom c := by
  cases v <;> rfl

theorem stopFrom_labeled (label : String) : (v.labeled label).stopFrom c = v.stopFrom c := by
  cases v <;> rfl

theorem stopFrom_asText : (v.asText c).stopFrom c = v.stopFrom c := by
  cases v <;> rfl

theorem stopFrom_orNothing : (v.orNothing c).stopFrom c = v.stopFrom c := by
  cases v <;> rfl

theorem stopFrom_seen (negated : Bool) : (v.seen negated c).stopFrom c = c := by
  cases v <;> cases negated <;> rfl

theorem bound_seen (negated : Bool) : (v.seen negated c).bound = [] := by
  cases v <;> cases negated <;> rfl

theorem reaches_behind (value : Value α) (bound : Scope α) {stop : Cursor} (hc : c.Reaches stop)
    (hv : stop.Reaches (v.stopFrom stop)) : c.Reaches ((v.behind value bound).stopFrom c) := by
  cases v with
  | matched values stop' inner => exact Cursor.reaches_trans hc hv
  | failed => exact c.reaches_refl
  | aborted e => exact c.reaches_refl

theorem reaches_nonempty (hv : c.Reaches (v.stopFrom c)) : c.Reaches (v.nonempty.stopFrom c) := by
  unfold nonempty
  split
  · exact c.reaches_refl
  · exact hv

end Verdict

inductive Event (α : Type) where
  /-- The host was called. -/
  | called (call : Call α)
  /-- An expectation was not met. -/
  | missed (expectation : ExpectationId) (place : Cursor)
  /-- A rule was invoked, and `log` happened in it. -/
  | invoked (rule : RuleId) (place : Cursor) (log : List (Event α))
  /-- What happened in `log`, with the expectations that were not met counting for nothing. -/
  | muted (log : List (Event α))

namespace Event

mutual

def calls : Event α → List (Call α)
  | called call => [call]
  | missed .. => []
  | invoked _ _ log | muted log => callsOf log

def callsOf : List (Event α) → List (Call α)
  | [] => []
  | event :: log => event.calls ++ callsOf log

end

mutual

def failures : Event α → List (ExpectationId × Cursor)
  | called _ | muted _ => []
  | missed expectation place => [(expectation, place)]
  | invoked _ _ log => failuresOf log

def failuresOf : List (Event α) → List (ExpectationId × Cursor)
  | [] => []
  | event :: log => event.failures ++ failuresOf log

end

/-- Induction over logs, with the statement at hand for what happened in their first events. -/
@[elab_as_elim]
theorem inductLog {P : List (Event α) → Prop} (nil : P [])
    (called : ∀ call log, P log → P (.called call :: log))
    (missed : ∀ expectation place log, P log → P (.missed expectation place :: log))
    (invoked : ∀ rule place inner log, P inner → P log → P (.invoked rule place inner :: log))
    (muted : ∀ inner log, P inner → P log → P (.muted inner :: log)) (log : List (Event α)) :
    P log :=
  @Event.rec_1 α (fun event => ∀ log, P log → P (event :: log)) P called missed
    (fun rule place inner hi log => invoked rule place inner log hi)
    (fun inner hi log => muted inner log hi) nil (fun _ log hhead htail => hhead log htail) log

@[simp] theorem callsOf_append (log log' : List (Event α)) :
    callsOf (log ++ log') = callsOf log ++ callsOf log' := by
  induction log with
  | nil => rfl
  | cons event log ih => rw [List.cons_append, callsOf, callsOf, ih, List.append_assoc]

@[simp] theorem failuresOf_append (log log' : List (Event α)) :
    failuresOf (log ++ log') = failuresOf log ++ failuresOf log' := by
  induction log with
  | nil => rfl
  | cons event log ih => rw [List.cons_append, failuresOf, failuresOf, ih, List.append_assoc]

end Event

/-- Derives rules host d node c env h v log h': at the cursor c, with the labels env in scope and
the host remembering h, the node comes to the verdict v with the events log, and leaves the host
remembering h'. No more than d rules are open at once in it. -/
inductive Derives (rules : Array CompiledRule) (host : Host σ α ε) :
    Nat → Node → Cursor → Scope α → σ → Verdict α ε → List (Event α) → σ → Prop where
  /-- Up to case, the value is the text that was read, not the one that was looked for. -/
  | literal {d c env h matcher e stop} (hm : matcher.matchAt c = some stop) :
      Derives rules host d (.literal matcher e) c env h
        (.matched
          (.str (if matcher.literal.ignoreCase then c.textTo stop else matcher.literal.text))
          stop []) [] h
  | literal_missed {d c env h matcher e} (hm : matcher.matchAt c = none) :
      Derives rules host d (.literal matcher e) c env h .failed [.missed e c] h
  | charClass {d c env h matcher e a} (hp : c.peek = some a) (ha : matcher.accepts a = true) :
      Derives rules host d (.charClass matcher e) c env h (.matched (.str a.toString) c.next []) []
        h
  | charClass_missed {d c env h matcher e} (ha : ∀ a, c.peek = some a → matcher.accepts a = false) :
      Derives rules host d (.charClass matcher e) c env h .failed [.missed e c] h
  | any {d c env h e a} (hp : c.peek = some a) :
      Derives rules host d (.any e) c env h (.matched (.str a.toString) c.next []) [] h
  | any_missed {d c env h e} (hp : c.peek = none) :
      Derives rules host d (.any e) c env h .failed [.missed e c] h
  /-- The body of a rule sees no labels from outside, and its own stay inside. -/
  | ruleRef {d c env h id rule v log h'} (hr : rules[id]? = some rule)
      (body : Derives rules host d rule.node c [] h v log h') :
      Derives rules host (d + 1) (.ruleRef id) c env h v.closed [.invoked id c log] h'
  | predicate {d c env h negated code answer h'}
      (hc : host.predicate code ⟨c, c, env.reverse, none⟩ h = (.ok answer, h')) :
      Derives rules host d (.predicate negated code) c env h
        (if answer != negated then .matched .null c [] else .failed)
        [.called ⟨.predicate, code, ⟨c, c, env.reverse, none⟩⟩] h'
  | predicate_error {d c env h negated code e h'}
      (hc : host.predicate code ⟨c, c, env.reverse, none⟩ h = (.error e, h')) :
      Derives rules host d (.predicate negated code) c env h
        (.aborted (e.toParseError (⟨c, c, env.reverse, none⟩ : CodeContext α)))
        [.called ⟨.predicate, code, ⟨c, c, env.reverse, none⟩⟩] h'
  | sequence_nil {d c env h} :
      Derives rules host d (.sequence []) c env h (.matched (.list []) c []) [] h
  /-- The labels of an element are in scope for the elements behind it. -/
  | sequence_cons {d c env h node nodes value stop bound log h₁ v log' h₂}
      (first : Derives rules host d node c env h (.matched value stop bound) log h₁)
      (rest : Derives rules host d (.sequence nodes) stop (bound ++ env) h₁ v log' h₂) :
      Derives rules host d (.sequence (node :: nodes)) c env h (v.behind value bound)
        (log ++ log') h₂
  | sequence_failed {d c env h node nodes log h'}
      (first : Derives rules host d node c env h .failed log h') :
      Derives rules host d (.sequence (node :: nodes)) c env h .failed log h'
  | sequence_aborted {d c env h node nodes e log h'}
      (first : Derives rules host d node c env h (.aborted e) log h') :
      Derives rules host d (.sequence (node :: nodes)) c env h (.aborted e) log h'
  | choice_nil {d c env h} : Derives rules host d (.choice []) c env h .failed [] h
  | choice_matched {d c env h node nodes value stop bound log h'}
      (first : Derives rules host d node c env h (.matched value stop bound) log h') :
      Derives rules host d (.choice (node :: nodes)) c env h (.matched value stop []) log h'
  | choice_cons {d c env h node nodes log h₁ v log' h₂}
      (first : Derives rules host d node c env h .failed log h₁)
      (rest : Derives rules host d (.choice nodes) c env h₁ v log' h₂) :
      Derives rules host d (.choice (node :: nodes)) c env h v (log ++ log') h₂
  | choice_aborted {d c env h node nodes e log h'}
      (first : Derives rules host d node c env h (.aborted e) log h') :
      Derives rules host d (.choice (node :: nodes)) c env h (.aborted e) log h'
  | labeled {d c env h label body v log h'}
      (inner : Derives rules host d body c env h v log h') :
      Derives rules host d (.wrapped (.labeled label) body) c env h (v.labeled label) log h'
  /-- A failure is told as one of the name alone. -/
  | named_failed {d c env h e body log h'}
      (inner : Derives rules host d body c env h .failed log h') :
      Derives rules host d (.wrapped (.named e) body) c env h .failed [.muted log, .missed e c] h'
  | named {d c env h e body v log h'} (inner : Derives rules host d body c env h v log h')
      (hv : v ≠ .failed) :
      Derives rules host d (.wrapped (.named e) body) c env h v.closed [.muted log] h'
  /-- The labels of the match are in scope for the block. -/
  | action {d c env h code body value stop bound log h₁ result h₂}
      (inner : Derives rules host d body c env h (.matched value stop bound) log h₁)
      (hc : host.action code ⟨c, stop, (bound ++ env).reverse, some value⟩ h₁ = (.ok result, h₂)) :
      Derives rules host d (.wrapped (.action code) body) c env h (.matched result stop [])
        (log ++ [.called ⟨.action, code, ⟨c, stop, (bound ++ env).reverse, some value⟩⟩]) h₂
  | action_error {d c env h code body value stop bound log h₁ e h₂}
      (inner : Derives rules host d body c env h (.matched value stop bound) log h₁)
      (hc : host.action code ⟨c, stop, (bound ++ env).reverse, some value⟩ h₁ = (.error e, h₂)) :
      Derives rules host d (.wrapped (.action code) body) c env h
        (.aborted (e.toParseError ⟨c, stop, (bound ++ env).reverse, some value⟩))
        (log ++ [.called ⟨.action, code, ⟨c, stop, (bound ++ env).reverse, some value⟩⟩]) h₂
  | action_failed {d c env h code body log h'}
      (inner : Derives rules host d body c env h .failed log h') :
      Derives rules host d (.wrapped (.action code) body) c env h .failed log h'
  | action_aborted {d c env h code body e log h'}
      (inner : Derives rules host d body c env h (.aborted e) log h') :
      Derives rules host d (.wrapped (.action code) body) c env h (.aborted e) log h'
  | text {d c env h body v log h'} (inner : Derives rules host d body c env h v log h') :
      Derives rules host d (.wrapped .text body) c env h (v.asText c) log h'
  | optional {d c env h body v log h'} (inner : Derives rules host d body c env h v log h') :
      Derives rules host d (.wrapped .optional body) c env h (v.orNothing c) log h'
  | zeroOrMore_done {d c env h body log h'}
      (inner : Derives rules host d body c env h .failed log h') :
      Derives rules host d (.wrapped .zeroOrMore body) c env h (.matched (.list []) c []) log h'
  /-- A match of nothing is the last one. -/
  | zeroOrMore_empty {d c env h body value bound log h'}
      (inner : Derives rules host d body c env h (.matched value c bound) log h') :
      Derives rules host d (.wrapped .zeroOrMore body) c env h (.matched (.list [value]) c []) log
        h'
  | zeroOrMore_round {d c env h body value stop bound log h₁ v log' h₂}
      (inner : Derives rules host d body c env h (.matched value stop bound) log h₁)
      (hs : stop ≠ c)
      (rest : Derives rules host d (.wrapped .zeroOrMore body) stop env h₁ v log' h₂) :
      Derives rules host d (.wrapped .zeroOrMore body) c env h (v.behind value []) (log ++ log') h₂
  | zeroOrMore_aborted {d c env h body e log h'}
      (inner : Derives rules host d body c env h (.aborted e) log h') :
      Derives rules host d (.wrapped .zeroOrMore body) c env h (.aborted e) log h'
  | oneOrMore {d c env h body v log h'}
      (rounds : Derives rules host d (.wrapped .zeroOrMore body) c env h v log h') :
      Derives rules host d (.wrapped .oneOrMore body) c env h v.nonempty log h'
  | group {d c env h body v log h'} (inner : Derives rules host d body c env h v log h') :
      Derives rules host d (.wrapped .group body) c env h v.closed log h'
  | followedBy {d c env h body v log h'} (inner : Derives rules host d body c env h v log h') :
      Derives rules host d (.wrapped .followedBy body) c env h (v.seen false c) [.muted log] h'
  | notFollowedBy {d c env h body v log h'} (inner : Derives rules host d body c env h v log h') :
      Derives rules host d (.wrapped .notFollowedBy body) c env h (v.seen true c) [.muted log] h'

/-- Blocks give the same answers where the host remembers things that go together in `Like`, and
leave it remembering things that do. -/
structure Host.Alike (host : Host σ α ε) (Like : σ → σ → Prop) : Prop where
  action : ∀ code context m n, Like m n →
    (host.action code context m).1 = (host.action code context n).1 ∧
    Like (host.action code context m).2 (host.action code context n).2
  predicate : ∀ code context m n, Like m n →
    (host.predicate code context m).1 = (host.predicate code context n).1 ∧
    Like (host.predicate code context m).2 (host.predicate code context n).2

theorem Host.alike_eq (host : Host σ α ε) : host.Alike Eq :=
  ⟨fun _ _ _ _ h => h ▸ ⟨rfl, rfl⟩, fun _ _ _ _ h => h ▸ ⟨rfl, rfl⟩⟩

/-- Two calls of a block where the host remembers things alike. -/
theorem Host.Alike.action_answers {host : Host σ α ε} {Like : σ → σ → Prop} (hl : host.Alike Like)
    {code : String} {context : CodeContext α} {m n m' n' : σ} {a b : Except (CodeError ε) (Value α)}
    (hh : Like m n) (hm : host.action code context m = (a, m'))
    (hn : host.action code context n = (b, n')) : b = a ∧ Like m' n' := by
  obtain ⟨ha, hh'⟩ := hl.action code context m n hh
  rw [hm, hn] at ha hh'
  exact ⟨ha.symm, hh'⟩

theorem Host.Alike.predicate_answers {host : Host σ α ε} {Like : σ → σ → Prop}
    (hl : host.Alike Like)
    {code : String} {context : CodeContext α} {m n m' n' : σ} {a b : Except (CodeError ε) Bool}
    (hh : Like m n) (hm : host.predicate code context m = (a, m'))
    (hn : host.predicate code context n = (b, n')) : b = a ∧ Like m' n' := by
  obtain ⟨ha, hh'⟩ := hl.predicate code context m n hh
  rw [hm, hn] at ha hh'
  exact ⟨ha.symm, hh'⟩

namespace Derives

variable {rules : Array CompiledRule} {host : Host σ α ε} {Like : σ → σ → Prop} {d D : Nat}
  {node : Node} {c : Cursor} {env : Scope α} {h h' : σ} {v : Verdict α ε} {log : List (Event α)}

/-- Who goes on, does so in the text and not before where it was. -/
theorem reaches (hd : Derives rules host d node c env h v log h') : c.Reaches (v.stopFrom c) := by
  induction hd with
  | literal hm => exact LiteralMatcher.reaches_of_matchAt hm
  | charClass => exact Cursor.reaches_next _
  | any => exact Cursor.reaches_next _
  | ruleRef _ _ ih | named _ _ ih | group _ ih => rw [Verdict.stopFrom_closed]; exact ih
  | labeled _ ih => rw [Verdict.stopFrom_labeled]; exact ih
  | text _ ih => rw [Verdict.stopFrom_asText]; exact ih
  | optional _ ih => rw [Verdict.stopFrom_orNothing]; exact ih
  | followedBy | notFollowedBy => rw [Verdict.stopFrom_seen]; exact Cursor.reaches_refl _
  | sequence_cons _ _ ihf ihr | zeroOrMore_round _ _ _ ihf ihr =>
    exact Verdict.reaches_behind _ _ _ _ ihf ihr
  | choice_matched _ ih | action _ _ ih => exact ih
  | choice_cons _ _ _ ihr => exact ihr
  | oneOrMore _ ih => exact Verdict.reaches_nonempty _ _ ih
  | predicate => split <;> exact Cursor.reaches_refl _
  | _ => exact Cursor.reaches_refl _

theorem predicate_inv {negated : Bool} {code : String}
    (hd : Derives rules host d (.predicate negated code) c env h v log h') :
    let context : CodeContext α := ⟨c, c, env.reverse, none⟩
    ∃ answer, host.predicate code context h = (answer, h') ∧
      log = [.called ⟨.predicate, code, context⟩] ∧
      v = match answer with
        | .ok answer => if answer != negated then .matched .null c [] else .failed
        | .error e => .aborted (e.toParseError context) := by
  cases hd with
  | predicate hc => exact ⟨_, hc, rfl, rfl⟩
  | predicate_error hc => exact ⟨_, hc, rfl, rfl⟩

/-- A sequence begins with its first element, whose verdict decides whether it goes on. -/
theorem sequence_inv {nodes : List Node}
    (hd : Derives rules host d (.sequence (node :: nodes)) c env h v log h') :
    ∃ v₁ log₁ h₁, Derives rules host d node c env h v₁ log₁ h₁ ∧
      match v₁ with
      | .matched value stop bound => ∃ rest log₂,
        Derives rules host d (.sequence nodes) stop (bound ++ env) h₁ rest log₂ h' ∧
          v = rest.behind value bound ∧ log = log₁ ++ log₂
      | v₁ => v = v₁ ∧ log = log₁ ∧ h' = h₁ := by
  cases hd with
  | sequence_cons first rest => exact ⟨_, _, _, first, _, _, rest, rfl, rfl⟩
  | sequence_failed first => exact ⟨_, _, _, first, rfl, rfl, rfl⟩
  | sequence_aborted first => exact ⟨_, _, _, first, rfl, rfl, rfl⟩

/-- A choice begins with its first alternative, and goes on only where that fails. -/
theorem choice_inv {nodes : List Node}
    (hd : Derives rules host d (.choice (node :: nodes)) c env h v log h') :
    ∃ v₁ log₁ h₁, Derives rules host d node c env h v₁ log₁ h₁ ∧
      match v₁ with
      | .failed => ∃ log₂, Derives rules host d (.choice nodes) c env h₁ v log₂ h' ∧
        log = log₁ ++ log₂
      | v₁ => v = v₁.closed ∧ log = log₁ ∧ h' = h₁ := by
  cases hd with
  | choice_matched first => exact ⟨_, _, _, first, rfl, rfl, rfl⟩
  | choice_cons first rest => exact ⟨_, _, _, first, _, rest, rfl⟩
  | choice_aborted first => exact ⟨_, _, _, first, rfl, rfl, rfl⟩

theorem named_inv {expectation : ExpectationId}
    (hd : Derives rules host d (.wrapped (.named expectation) node) c env h v log h') :
    ∃ v₁ log₁, Derives rules host d node c env h v₁ log₁ h' ∧ v = v₁.closed ∧
      log = .muted log₁ :: match v₁ with
        | .failed => [.missed expectation c]
        | _ => [] := by
  cases hd with
  | named_failed inner => exact ⟨_, _, inner, rfl, rfl⟩
  | @named _ _ _ _ _ _ v₁ log₁ _ inner hv =>
    cases v₁ with
    | failed => exact absurd rfl hv
    | matched value stop bound => exact ⟨_, _, inner, rfl, rfl⟩
    | aborted e => exact ⟨_, _, inner, rfl, rfl⟩

theorem action_inv {code : String}
    (hd : Derives rules host d (.wrapped (.action code) node) c env h v log h') :
    ∃ v₁ log₁ h₁, Derives rules host d node c env h v₁ log₁ h₁ ∧
      match v₁ with
      | .matched value stop bound =>
        let context : CodeContext α := ⟨c, stop, (bound ++ env).reverse, some value⟩
        ∃ answer, host.action code context h₁ = (answer, h') ∧
          log = log₁ ++ [.called ⟨.action, code, context⟩] ∧
          v = match answer with
            | .ok result => .matched result stop []
            | .error e => .aborted (e.toParseError context)
      | v₁ => v = v₁ ∧ log = log₁ ∧ h' = h₁ := by
  cases hd with
  | action inner hc => exact ⟨_, _, _, inner, _, hc, rfl, rfl⟩
  | action_error inner hc => exact ⟨_, _, _, inner, _, hc, rfl, rfl⟩
  | action_failed inner => exact ⟨_, _, _, inner, rfl, rfl, rfl⟩
  | action_aborted inner => exact ⟨_, _, _, inner, rfl, rfl, rfl⟩

/-- A repetition begins with a round, and goes on where that moves the cursor. -/
theorem zeroOrMore_inv (hd : Derives rules host d (.wrapped .zeroOrMore node) c env h v log h') :
    ∃ v₁ log₁ h₁, Derives rules host d node c env h v₁ log₁ h₁ ∧
      match v₁ with
      | .matched value stop _ =>
        stop = c ∧ v = .matched (.list [value]) c [] ∧ log = log₁ ∧ h' = h₁ ∨
        stop ≠ c ∧ ∃ rest log₂,
          Derives rules host d (.wrapped .zeroOrMore node) stop env h₁ rest log₂ h' ∧
            v = rest.behind value [] ∧ log = log₁ ++ log₂
      | .failed => v = .matched (.list []) c [] ∧ log = log₁ ∧ h' = h₁
      | .aborted e => v = .aborted e ∧ log = log₁ ∧ h' = h₁ := by
  cases hd with
  | zeroOrMore_done inner => exact ⟨_, _, _, inner, rfl, rfl, rfl⟩
  | zeroOrMore_empty inner => exact ⟨_, _, _, inner, Or.inl ⟨rfl, rfl, rfl, rfl⟩⟩
  | zeroOrMore_round inner hs rest => exact ⟨_, _, _, inner, Or.inr ⟨hs, _, _, rest, rfl, rfl⟩⟩
  | zeroOrMore_aborted inner => exact ⟨_, _, _, inner, rfl, rfl, rfl⟩

/-- A derivation leaves nothing open: what is derived with other things remembered, but alike, or
with other rules allowed to be open, is the same. -/
theorem unique (hl : host.Alike Like) (hd : Derives rules host d node c env h v log h') {d₂ : Nat}
    {h₂ h₂' : σ} {v₂ : Verdict α ε} {log₂ : List (Event α)} (hh : Like h h₂)
    (hd₂ : Derives rules host d₂ node c env h₂ v₂ log₂ h₂') :
    v₂ = v ∧ log₂ = log ∧ Like h' h₂' := by
  -- On the first derivation: the second one begins with the same part, of which it has, by
  -- induction, the same verdict, and so goes on in the same way.
  induction hd generalizing d₂ h₂ v₂ log₂ h₂' with
  | literal hm =>
    cases hd₂ with
    | literal hm₂ => cases hm.symm.trans hm₂; exact ⟨rfl, rfl, hh⟩
    | literal_missed hm₂ => cases hm.symm.trans hm₂
  | literal_missed hm =>
    cases hd₂ with
    | literal hm₂ => cases hm.symm.trans hm₂
    | literal_missed hm₂ => exact ⟨rfl, rfl, hh⟩
  | charClass hp ha =>
    cases hd₂ with
    | charClass hp₂ ha₂ => cases hp.symm.trans hp₂; exact ⟨rfl, rfl, hh⟩
    | charClass_missed ha₂ => cases ha.symm.trans (ha₂ _ hp)
  | charClass_missed ha =>
    cases hd₂ with
    | charClass hp₂ ha₂ => cases ha₂.symm.trans (ha _ hp₂)
    | charClass_missed ha₂ => exact ⟨rfl, rfl, hh⟩
  | any hp =>
    cases hd₂ with
    | any hp₂ => cases hp.symm.trans hp₂; exact ⟨rfl, rfl, hh⟩
    | any_missed hp₂ => cases hp.symm.trans hp₂
  | any_missed hp =>
    cases hd₂ with
    | any hp₂ => cases hp.symm.trans hp₂
    | any_missed hp₂ => exact ⟨rfl, rfl, hh⟩
  | ruleRef hr body ih =>
    cases hd₂ with
    | ruleRef hr₂ body₂ =>
      cases hr.symm.trans hr₂
      obtain ⟨rfl, rfl, hh'⟩ := ih hh body₂
      exact ⟨rfl, rfl, hh'⟩
  | predicate hc | predicate_error hc =>
    obtain ⟨answer, hc₂, rfl, rfl⟩ := hd₂.predicate_inv
    obtain ⟨rfl, hh'⟩ := hl.predicate_answers hh hc hc₂
    exact ⟨rfl, rfl, hh'⟩
  | sequence_nil | choice_nil => cases hd₂; exact ⟨rfl, rfl, hh⟩
  | sequence_cons first rest ihf ihr =>
    obtain ⟨v₁, log₁, h₁, first₂, hrest⟩ := hd₂.sequence_inv
    obtain ⟨rfl, rfl, hh₁⟩ := ihf hh first₂
    obtain ⟨_, _, rest₂, rfl, rfl⟩ := hrest
    obtain ⟨rfl, rfl, hh'⟩ := ihr hh₁ rest₂
    exact ⟨rfl, rfl, hh'⟩
  | sequence_failed first ih | sequence_aborted first ih =>
    obtain ⟨v₁, log₁, h₁, first₂, hrest⟩ := hd₂.sequence_inv
    obtain ⟨rfl, rfl, hh'⟩ := ih hh first₂
    obtain ⟨rfl, rfl, rfl⟩ := hrest
    exact ⟨rfl, rfl, hh'⟩
  | choice_cons first rest ihf ihr =>
    obtain ⟨v₁, log₁, h₁, first₂, hrest⟩ := hd₂.choice_inv
    obtain ⟨rfl, rfl, hh₁⟩ := ihf hh first₂
    obtain ⟨_, rest₂, rfl⟩ := hrest
    obtain ⟨rfl, rfl, hh'⟩ := ihr hh₁ rest₂
    exact ⟨rfl, rfl, hh'⟩
  | choice_matched first ih | choice_aborted first ih =>
    obtain ⟨v₁, log₁, h₁, first₂, hrest⟩ := hd₂.choice_inv
    obtain ⟨rfl, rfl, hh'⟩ := ih hh first₂
    obtain ⟨rfl, rfl, rfl⟩ := hrest
    exact ⟨rfl, rfl, hh'⟩
  | named_failed inner ih =>
    obtain ⟨v₁, log₁, inner₂, rfl, rfl⟩ := hd₂.named_inv
    obtain ⟨rfl, rfl, hh'⟩ := ih hh inner₂
    exact ⟨rfl, rfl, hh'⟩
  | named inner hv ih =>
    obtain ⟨v₁, log₁, inner₂, rfl, rfl⟩ := hd₂.named_inv
    obtain ⟨rfl, rfl, hh'⟩ := ih hh inner₂
    cases v₁ with
    | failed => exact absurd rfl hv
    | matched value stop bound => exact ⟨rfl, rfl, hh'⟩
    | aborted e => exact ⟨rfl, rfl, hh'⟩
  | action inner hc ih | action_error inner hc ih =>
    obtain ⟨v₁, log₁, h₁, inner₂, hrest⟩ := hd₂.action_inv
    obtain ⟨rfl, rfl, hh₁⟩ := ih hh inner₂
    obtain ⟨answer, hc₂, rfl, rfl⟩ := hrest
    obtain ⟨rfl, hh'⟩ := hl.action_answers hh₁ hc hc₂
    exact ⟨rfl, rfl, hh'⟩
  | action_failed inner ih | action_aborted inner ih =>
    obtain ⟨v₁, log₁, h₁, inner₂, hrest⟩ := hd₂.action_inv
    obtain ⟨rfl, rfl, hh'⟩ := ih hh inner₂
    obtain ⟨rfl, rfl, rfl⟩ := hrest
    exact ⟨rfl, rfl, hh'⟩
  | zeroOrMore_done inner ih | zeroOrMore_aborted inner ih =>
    obtain ⟨v₁, log₁, h₁, inner₂, hrest⟩ := hd₂.zeroOrMore_inv
    obtain ⟨rfl, rfl, hh'⟩ := ih hh inner₂
    obtain ⟨rfl, rfl, rfl⟩ := hrest
    exact ⟨rfl, rfl, hh'⟩
  | zeroOrMore_empty inner ih =>
    obtain ⟨v₁, log₁, h₁, inner₂, hrest⟩ := hd₂.zeroOrMore_inv
    obtain ⟨rfl, rfl, hh'⟩ := ih hh inner₂
    obtain ⟨-, rfl, rfl, rfl⟩ | ⟨hs₂, -⟩ := hrest
    · exact ⟨rfl, rfl, hh'⟩
    · exact absurd rfl hs₂
  | zeroOrMore_round inner hs rest ihi ihr =>
    obtain ⟨v₁, log₁, h₁, inner₂, hrest⟩ := hd₂.zeroOrMore_inv
    obtain ⟨rfl, rfl, hh₁⟩ := ihi hh inner₂
    obtain ⟨hs₂, -⟩ | ⟨-, _, _, rest₂, rfl, rfl⟩ := hrest
    · exact absurd hs₂ hs
    · obtain ⟨rfl, rfl, hh'⟩ := ihr hh₁ rest₂
      exact ⟨rfl, rfl, hh'⟩
  | labeled inner ih | text inner ih | optional inner ih | oneOrMore inner ih | group inner ih
  | followedBy inner ih | notFollowedBy inner ih =>
    cases hd₂
    rename_i inner₂
    obtain ⟨rfl, rfl, hh'⟩ := ih hh inner₂
    exact ⟨rfl, rfl, hh'⟩

end Derives

end Peg
