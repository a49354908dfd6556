import Peg.Proofs.Nesting
import Peg.Proofs.Simplification

/-! References that are led past a proxy. Where one program enters the proxy and from there its
target, the other one enters the target at once. So its rules are nested less deeply, but otherwise
it does the same, unless the first one ends at the limit of nested rules; for what is kept of the
proxy is kept of the target, too. -/
namespace Peg

variable {σ α ε β : Type} {text : Cursor}

theorem State.find?_of_trail {s t : State σ α} (h : t.trail = s.trail) (id : RuleId)
    (offset : Nat) : t.memo.find? id offset = s.memo.find? id offset :=
  congrArg (fun trail => trail.1.find? id offset) h

def sparing (id : RuleId) (offset : Nat) : Contract σ α ε where
  Allows s r := r.2.memo.find? id offset = s.memo.find? id offset
  still ht _ := State.find?_of_trail ht id offset
  around h hs ht _ _ :=
    (State.find?_of_trail ht id offset).trans (h.trans (State.find?_of_trail hs id offset).symm)
  trans h _ h' ht := h'.trans ((State.find?_of_trail ht id offset).trans h)

namespace Program

variable {program : Program} {rule : RuleId → Bool} {calls : String → String → Prop}
  (host : Host σ α ε) {kept : RuleId} {target : CompiledRule} {offset p : Nat}

/-- The rule does not lead to the one called `name` before it consumes input. -/
def Avoids (program : Program) (calls : String → String → Prop) (name : String) (id : RuleId) :
    Prop :=
  ∀ found : CompiledRule, program.rules[id]? = some found →
    ¬ Relation.ReflTransGen calls found.name name

/-- The body of a rule keeps no result of `kept` at the offset, if what the rule calls does not. -/
theorem body_spares (hg : program.Guarded rule calls) {call : RuleId → Matcher σ α ε}
    (hc : ∀ id, Gives text (RuleResult.Lawful rule) id (call id))
    (hcall : ∀ p id, offset ≤ p → (p = offset → program.Avoids calls target.name id) →
      Keeps text (RuleResult.Lawful rule) (sparing kept offset) p (call id))
    {id : RuleId} {found : CompiledRule} (hr : program.rules[id]? = some found) (hp : offset ≤ p)
    (ha : p = offset → ∀ next, calls found.name next →
      ¬ Relation.ReflTransGen calls next target.name) :
    Keeps text (RuleResult.Lawful rule) (sparing kept offset) p (found.node.run host call) := by
  refine Node.run_keeps host (fun id => restores_of_gives (hc id))
    (fun id hi => consumes_of_gives (hc id) hi) found.node (fun called hm => ?_) fun called => ?_
  · refine hcall p called hp fun he next hn => ?_
    exact ha he next.name (hg.leftCalls id found hr called hm next hn)
  · exact hcall (p + 1) called (by omega) fun he => by omega

/-- A rule keeps no result of `kept` at an offset further back, nor at its own offset if it does not
lead to `kept` there. -/
theorem invoke_spares (hg : program.Guarded rule calls) (hk : program.rules[kept]? = some target)
    (limit depth : Nat) {id : RuleId} (hp : offset ≤ p)
    (ha : p = offset → program.Avoids calls target.name id) :
    Keeps text (RuleResult.Lawful rule) (sparing kept offset) p
      (program.invoke host limit depth id) := by
  induction depth using Nat.strongRecOn generalizing p id with
  | _ depth ih =>
    intro s hs hps
    rcases h : program.invoke host limit depth id s with ⟨o, s'⟩
    rcases invoke_cases program host limit h with ⟨-, -, rfl⟩ |
      ⟨found, result, events, -, -, -, rfl⟩ | ⟨found, -, -, -, -, rfl⟩ |
      ⟨found, depth', o', t, events, hr, -, rfl, hb, hend⟩
    · exact rfl
    · exact rfl
    · obtain ⟨events, he⟩ := State.trace_eq program .enter found s.cursor s.cursor s
      rw [he]
      exact rfl
    · have ha (he : s.cursor.offset = offset) : program.Avoids calls target.name id :=
        ha (by omega)
      have hbody := body_spares (p := s.cursor.offset) host hg
        (fun id => invoke_gives program host limit hg.consumes depth' id)
        (fun q called hq ha => ih depth' (Nat.lt_succ_self _) hq ha) hr (by omega)
        fun he next hn hnext => ha he found hr (.head hn hnext)
      have hspared := hbody { s with scope := [], events := events } ⟨hs.inText, hs.kept⟩ le_rfl
      rw [hb] at hspared
      rcases hend with ⟨e, -, -, rfl⟩ | ⟨result, events', -, -, rfl⟩
      · exact hspared
      · rw [State.remember_eq]
        refine Eq.trans ?_ hspared
        dsimp only
        split
        · rw [Memo.find?_insert, if_neg]
          intro he
          obtain ⟨rfl, hoffset⟩ := Prod.mk.inj he
          cases hk.symm.trans hr
          exact ha hoffset target hk .refl
        · rfl

/-- Rules do not see the labels of their callers. -/
theorem invoke_scope (program : Program) (limit depth : Nat) (id : RuleId) (s : State σ α)
    (scope : Scope α) : program.invoke host limit depth id { s with scope := scope } =
      ((program.invoke host limit depth id s).1,
        { (program.invoke host limit depth id s).2 with scope := scope }) := by
  have htrace (kind : TraceKind) (found : CompiledRule) (start stop : Cursor) (s : State σ α) :
      ({ s with scope := scope } : State σ α).trace program kind found start stop =
        { s.trace program kind found start stop with scope := scope } := by
    unfold State.trace
    split <;> rfl
  have hleave (found : CompiledRule) (start : Cursor) (result : Option (Value α))
      (s : State σ α) : (({ s with scope := scope } : State σ α).leave program found start result :
        Outcome ε (Value α) × State σ α) = ((s.leave program found start result).1,
          { (s.leave program found start result : Outcome ε (Value α) × State σ α).2 with
            scope := scope }) := by
    cases result <;> exact congrArg (Prod.mk _) (htrace _ found start _ s)
  cases hr : program.rules[id]? with
  | none => rw [invoke_unknown program host limit hr, invoke_unknown program host limit hr]
  | some found =>
    have henter := htrace .enter found s.cursor s.cursor s
    cases hm : s.memoized? program id with
    | some result =>
      rw [invoke_hit program host limit hr hm,
        invoke_hit program host limit (s := { s with scope := scope }) hr hm]
      dsimp only at henter ⊢
      rw [henter]
      exact hleave found s.cursor result.value
        { s.trace program .enter found s.cursor s.cursor with cursor := result.stop }
    | none =>
      cases depth with
      | zero =>
        rw [invoke_zero program host limit hr hm,
          invoke_zero program host limit (s := { s with scope := scope }) hr hm]
        exact congrArg (Prod.mk _) henter
      | succ depth =>
        rcases hb : found.node.run host (program.invoke host limit depth)
          { s.trace program .enter found s.cursor s.cursor with scope := [] } with ⟨o, t⟩
        have hb' : found.node.run host (program.invoke host limit depth)
            { ({ s with scope := scope } : State σ α).trace program .enter found s.cursor s.cursor
              with scope := [] } = (o, t) := by
          rw [henter]
          exact hb
        obtain ⟨result, rfl⟩ | ⟨e, rfl⟩ := o.ended_or_aborted
        · rw [invoke_ended program host limit hr hm hb,
            invoke_ended program host limit (s := { s with scope := scope }) hr hm hb']
          have hresult := hleave found s.cursor result
            (({ t with scope := s.scope } : State σ α).remember program id s.cursor result)
          simp only [State.remember_eq] at hresult ⊢
          exact hresult
        · rw [invoke_aborted program host limit hr hm hb,
            invoke_aborted program host limit (s := { s with scope := scope }) hr hm hb']

end Program

/-- What is kept in two programs of which the second one enters `target` where the first one enters
`proxy`. -/
structure Bypassed (text : Cursor) (rule : RuleId → Bool) (proxy target : RuleId)
    (memo memo' : Memo α) : Prop where
  same : ∀ id, id ≠ proxy → ∀ offset, memo'.find? id offset = memo.find? id offset
  passed : ∀ offset result, memo.find? proxy offset = some result →
    memo.find? target offset = some result
  lawful : ∀ id c result, text.Reaches c → memo.find? id c.offset = some result →
    RuleResult.Lawful rule id c result

def bypassing (text : Cursor) (rule : RuleId → Bool) (proxy target : RuleId)
    (left right : Array Expectation) : Comparison α ε where
  Within := text.Reaches
  within_of_reaches := fun _ _ h h' => Cursor.reaches_trans h h'
  left := left
  right := right
  Known := Bypassed text rule proxy target
  Excused := fun e => ∃ limit offset, e = .nestingLimit limit offset
  traced := False

namespace Bypassed

variable {rule : RuleId → Bool} {proxy target : RuleId} {memo memo' : Memo α}

theorem empty : Bypassed text rule proxy target (.empty : Memo α) .empty where
  same _ _ _ := rfl
  passed offset _ h := absurd ((Memo.find?_empty proxy offset).symm.trans h) nofun
  lawful id c _ _ h := absurd ((Memo.find?_empty id c.offset).symm.trans h) nofun

theorem lawful_insert (h : Bypassed text rule proxy target memo memo') {id : RuleId} {c : Cursor}
    (hc : text.Reaches c) {result : RuleResult α} (hl : RuleResult.Lawful rule id c result) :
    ∀ id' c' result', text.Reaches c' →
      (memo.insert id c.offset result).find? id' c'.offset = some result' →
      RuleResult.Lawful rule id' c' result' := by
  intro id' c' result' hc' hf
  rw [Memo.find?_insert] at hf
  split at hf
  · rename_i he
    obtain ⟨rfl, ho⟩ := Prod.mk.inj he
    cases Cursor.eq_of_offset_eq hc hc' ho
    cases hf
    exact hl
  · exact h.lawful id' c' result' hc' hf

/-- A result may be kept of another rule than the proxy; of the target, if none is kept of the proxy
where the target was entered. -/
theorem insert (h : Bypassed text rule proxy target memo memo') {id : RuleId} (hid : id ≠ proxy)
    {c : Cursor} (hc : text.Reaches c) {result : RuleResult α}
    (hl : RuleResult.Lawful rule id c result)
    (hnew : id = target → memo.find? proxy c.offset = none) :
    Bypassed text rule proxy target (memo.insert id c.offset result)
      (memo'.insert id c.offset result) where
  same id' hid' offset := by rw [Memo.find?_insert, Memo.find?_insert, h.same id' hid' offset]
  passed offset result' hf := by
    rw [Memo.find?_insert, if_neg fun he => hid (Prod.mk.inj he).1] at hf
    rw [Memo.find?_insert, if_neg, h.passed offset result' hf]
    intro he
    obtain ⟨ht, rfl⟩ := Prod.mk.inj he
    cases hf.symm.trans (hnew ht)
  lawful := h.lawful_insert hc hl

/-- What is kept of the target may be kept of the proxy. -/
theorem insert_proxy (h : Bypassed text rule proxy target memo memo') (hne : target ≠ proxy)
    {c : Cursor} (hc : text.Reaches c) {result : RuleResult α}
    (hl : RuleResult.Lawful rule proxy c result)
    (hkept : memo.find? target c.offset = some result) :
    Bypassed text rule proxy target (memo.insert proxy c.offset result) memo' where
  same id' hid' offset := by
    rw [Memo.find?_insert, if_neg fun he => hid' (Prod.mk.inj he).1.symm, h.same id' hid' offset]
  -- The new result of the proxy is the one of the target that is kept at this place already.
  passed offset result' hf := by
    rw [Memo.find?_insert, if_neg fun he => hne (Prod.mk.inj he).1.symm]
    rw [Memo.find?_insert] at hf
    split at hf
    · rename_i he
      obtain ⟨-, rfl⟩ := Prod.mk.inj he
      cases hf
      exact hkept
    · exact h.passed offset result' hf
  lawful := h.lawful_insert hc hl

/-- What the second program keeps of the proxy is not looked at. -/
theorem insert_right (h : Bypassed text rule proxy target memo memo') (offset : Nat)
    (result : RuleResult α) :
    Bypassed text rule proxy target memo (memo'.insert proxy offset result) where
  same id' hid' offset' := by
    rw [Memo.find?_insert, if_neg fun he => hid' (Prod.mk.inj he).1.symm, h.same id' hid' offset']
  passed := h.passed
  lawful := h.lawful

end Bypassed

namespace Program

variable {p q : Program} {rule : RuleId → Bool} {calls : String → String → Prop} (host : Host σ α ε)
  {limit depth depth' : Nat} {proxy target : RuleId} {first found found' : CompiledRule}

theorem sound_of_alike {s t : State σ α}
    (h : s.Alike
      (bypassing text rule proxy target p.expectations q.expectations : Comparison α ε) t) :
    s.Sound text (RuleResult.Lawful rule) :=
  ⟨h.within, h.memo.lawful⟩

/-- Where the target is evaluated nothing is kept of the proxy, neither before nor by the body. -/
theorem unkept_of_miss (hg : p.Guarded rule calls) (hproxy : p.rules[proxy]? = some first)
    (hf : p.rules[target]? = some found) (hcalls : calls first.name found.name) {s : State σ α}
    (hs : s.Sound text (RuleResult.Lawful rule)) {memo' : Memo α}
    (hpassed : Bypassed text rule proxy target s.memo memo') (hon : p.cached = true)
    (hm : s.memoized? p target = none) {events : List TraceEvent} {o : Outcome ε (Value α)}
    {u : State σ α} (hb : found.node.run host (p.invoke host limit depth)
      { s with scope := [], events := events } = (o, u)) :
    u.memo.find? proxy s.cursor.offset = none := by
  have hspared := body_spares host hg (fun id => invoke_gives p host limit hg.consumes depth id)
    (fun q called hq ha => invoke_spares host hg hproxy limit depth hq ha) hf
    (Nat.le_refl s.cursor.offset) (fun _ next hn hnext =>
      hg.acyclic first.name (.head hcalls (.head' hn hnext)))
    { s with scope := [], events := events } ⟨hs.inText, hs.kept⟩ (Nat.le_refl _)
  rw [hb] at hspared
  refine hspared.trans ?_
  cases hk : s.memo.find? proxy s.cursor.offset with
  | none => rfl
  | some kept =>
    have hboth := State.memoized?_eq_some.mpr ⟨hon, hpassed.passed s.cursor.offset kept hk⟩
    cases hboth.symm.trans hm

/-- A rule that is not the proxy keeps in step if its body does. -/
theorem bypass_rule (hg : p.Guarded rule calls) (hcached : q.cached = p.cached)
    (hproxy : p.rules[proxy]? = some first) {id : RuleId} (hid : id ≠ proxy)
    (hf : p.rules[id]? = some found) (hf' : q.rules[id]? = some found')
    (hcalls : id = target → calls first.name found.name) (hd : depth ≤ depth')
    (hbody : ∀ d d', depth = d + 1 → d ≤ d' →
      Lockstep (bypassing text rule proxy target p.expectations q.expectations)
        (found.node.run host (p.invoke host limit d))
        (found'.node.run host (q.invoke host limit d'))) :
    Lockstep (bypassing text rule proxy target p.expectations q.expectations)
      (p.invoke host limit depth id) (q.invoke host limit depth' id) := by
  intro s t hst
  have hs := sound_of_alike hst
  have hkept : t.memoized? q id = s.memoized? p id := by
    unfold State.memoized?
    rw [hcached, hst.cursor, hst.memo.same id hid]
  cases hm : s.memoized? p id with
  | some result =>
    have hl := hst.memo.lawful id s.cursor result hs.inText (State.memoized?_eq_some.mp hm).2
    exact hit_agree host hf hf' False.elim False.elim hst hm (hkept.trans hm)
      (Cursor.reaches_trans hs.inText hl.reaches) limit depth depth'
  | none =>
    cases depth with
    | zero =>
      rw [invoke_zero p host limit hf hm]
      exact Or.inl ⟨_, rfl, limit, s.cursor.offset, rfl⟩
    | succ d =>
      obtain ⟨d', rfl⟩ := Nat.exists_eq_add_of_le' (Nat.le_trans (Nat.le_add_left 1 d) hd)
      have hd' : d ≤ d' := Nat.le_of_succ_le_succ hd
      have htrace : (s.trace p .enter found s.cursor s.cursor).Alike
          (bypassing text rule proxy target p.expectations q.expectations)
          (t.trace q .enter found' t.cursor t.cursor) :=
        hst.trace False.elim False.elim .enter hst.cursor hst.cursor
      obtain ⟨events, he⟩ := State.trace_eq p .enter found s.cursor s.cursor s
      obtain ⟨events', he'⟩ := State.trace_eq q .enter found' t.cursor t.cursor t
      rw [invoke_miss p host limit hf hm, invoke_miss q host limit hf' (hkept.trans hm)]
      rw [he, he'] at htrace ⊢
      refine evaluate_agree False.elim False.elim htrace (hbody d d' rfl hd')
        fun u u' result hb hu => ?_
      have hc (id : RuleId) : Gives text (RuleResult.Lawful rule) id (p.invoke host limit d id) :=
        invoke_gives p host limit hg.consumes d id
      obtain ⟨hl, -⟩ := body_gives host hc (hg.consumes id found hf)
        (s := { s with scope := [], events := events }) ⟨hs.inText, hs.kept⟩ hb
      rw [State.remember_eq, State.remember_eq]
      dsimp only at hl hb ⊢
      rw [hcached]
      split
      · rename_i hon
        rw [hst.cursor, hu.cursor]
        refine hu.memo.insert hid hs.inText hl fun he => ?_
        subst he
        exact unkept_of_miss host hg hproxy hf (hcalls rfl) hs hst.memo hon hm hb
      · exact hu.memo

/-- A proxy that is evaluated does what its target does in the second program. -/
theorem bypass_miss (hg : p.Guarded rule calls) (hproxy : p.rules[proxy]? = some first)
    (hnode : first.node = .ruleRef target) (hne : target ≠ proxy)
    (hf : p.rules[target]? = some found) {s t : State σ α}
    (hst : s.Alike
      (bypassing text rule proxy target p.expectations q.expectations : Comparison α ε) t)
    (hm : s.memoized? p proxy = none)
    (htarget : Lockstep (bypassing text rule proxy target p.expectations q.expectations)
      (p.invoke host limit depth target) (q.invoke host limit depth' target)) :
    Agree (bypassing text rule proxy target p.expectations q.expectations)
      (p.invoke host limit (depth + 1) proxy s) (q.invoke host limit depth' target t) := by
  have hs := sound_of_alike hst
  obtain ⟨events, he⟩ := State.trace_eq p .enter first s.cursor s.cursor s
  rw [invoke_miss p host limit hproxy hm, he]
  rcases hb : p.invoke host limit depth target
    ({ s with scope := [], events := events } : State σ α) with ⟨o, u⟩
  rcases hq : q.invoke host limit depth' target t with ⟨o', u'⟩
  have hq' : q.invoke host limit depth' target { t with scope := [] } =
      (o', { u' with scope := [] }) := by
    rw [invoke_scope, hq]
  have hr := htarget { s with scope := [], events := events } { t with scope := [] }
    { hst with scope := rfl, events := False.elim }
  rw [hb, hq'] at hr
  have hrun : first.node.run host (p.invoke host limit depth)
      { ({ s with events := events } : State σ α) with scope := [] } = (o, u) := by
    rw [hnode, Node.run]
    exact hb
  have hscope : u'.scope = s.scope := by
    have h := invoke_keepsScope q host limit depth' target t
    rw [hq] at h
    exact h.trans hst.scope
  obtain ⟨result, rfl⟩ | ⟨e, rfl⟩ := o.ended_or_aborted
  · refine hr.elim (fun e ho => absurd ho (Outcome.ofOption_ne_aborted result e)) fun ho hu => ?_
    cases ho
    obtain ⟨events', hl⟩ := State.leave_eq p first s.cursor result
      (({ u with scope := s.scope } : State σ α).remember p proxy s.cursor result)
    rw [evaluate_ended p host (p.invoke host limit depth) proxy first hrun, hl]
    refine Or.inr ⟨rfl, ?_⟩
    rw [State.remember_eq]
    refine { hu with scope := hscope, events := False.elim, memo := ?_ }
    dsimp only
    split
    · rename_i hon
      obtain ⟨hlawful, -⟩ := body_gives host
        (fun id => invoke_gives p host limit hg.consumes depth id) (hg.consumes proxy first hproxy)
        (s := { s with scope := [], events := events }) ⟨hs.inText, hs.kept⟩ hrun
      have hkept := find?_of_invoke p host limit hon hf
        (s := { s with scope := [], events := events }) hb
      exact hu.memo.insert_proxy hne hs.inText hlawful hkept
    · exact hu.memo
  · rw [evaluate_aborted p host (p.invoke host limit depth) proxy first hrun]
    refine hr.elim (fun e ho => by cases ho; rfl) fun ho hu => ?_
    cases ho
    exact Or.inr ⟨rfl, { hu with scope := hscope }⟩

/-- The proxy keeps in step with its target. -/
theorem bypass_proxy (hg : p.Guarded rule calls) (hcached : q.cached = p.cached)
    (hproxy : p.rules[proxy]? = some first) (hnode : first.node = .ruleRef target)
    (hne : target ≠ proxy) (hf : p.rules[target]? = some found)
    (hf' : q.rules[target]? = some found')
    (htarget : ∀ d, depth = d + 1 →
      Lockstep (bypassing text rule proxy target p.expectations q.expectations)
        (p.invoke host limit d target) (q.invoke host limit depth' target)) :
    Lockstep (bypassing text rule proxy target p.expectations q.expectations)
      (p.invoke host limit depth proxy) (q.invoke host limit depth' target) := by
  intro s t hst
  have hs := sound_of_alike hst
  cases hm : s.memoized? p proxy with
  | some result =>
    obtain ⟨hon, hk⟩ := State.memoized?_eq_some.mp hm
    have hm' : t.memoized? q target = some result := by
      refine State.memoized?_eq_some.mpr ⟨hcached.trans hon, ?_⟩
      rw [hst.cursor, hst.memo.same target hne]
      exact hst.memo.passed _ _ hk
    have hl := hst.memo.lawful proxy s.cursor result hs.inText hk
    exact hit_agree host hproxy hf' False.elim False.elim hst hm hm'
      (Cursor.reaches_trans hs.inText hl.reaches) limit depth depth'
  | none =>
    cases depth with
    | zero =>
      rw [invoke_zero p host limit hproxy hm]
      exact Or.inl ⟨_, rfl, limit, s.cursor.offset, rfl⟩
    | succ d => exact bypass_miss host hg hproxy hnode hne hf hst hm (htarget d rfl)

/-- From a proxy itself both programs start alike. -/
theorem bypass_start (hg : p.Guarded rule calls) (hproxy : p.rules[proxy]? = some first)
    (hnode : first.node = .ruleRef target) {first' : CompiledRule}
    (hproxy' : q.rules[proxy]? = some first') (hnode' : first'.node = .ruleRef target)
    (hne : target ≠ proxy) (hf : p.rules[target]? = some found) {s t : State σ α}
    (hst : s.Alike
      (bypassing text rule proxy target p.expectations q.expectations : Comparison α ε) t)
    (hm : s.memoized? p proxy = none) (hm' : t.memoized? q proxy = none)
    (htarget : ∀ d, depth = d + 1 →
      Lockstep (bypassing text rule proxy target p.expectations q.expectations)
        (p.invoke host limit d target) (q.invoke host limit d target)) :
    Agree (bypassing text rule proxy target p.expectations q.expectations)
      (p.invoke host limit depth proxy s) (q.invoke host limit depth proxy t) := by
  cases depth with
  | zero =>
    rw [invoke_zero p host limit hproxy hm]
    exact Or.inl ⟨_, rfl, limit, s.cursor.offset, rfl⟩
  | succ d =>
    obtain ⟨events, he⟩ := State.trace_eq q .enter first' t.cursor t.cursor t
    have hagree := bypass_miss host hg hproxy hnode hne hf (t := { t with events := events })
      { hst with events := False.elim } hm (htarget d rfl)
    rcases hq : q.invoke host limit d target { t with events := events } with ⟨o, u⟩
    have hrun : first'.node.run host (q.invoke host limit d)
        { ({ t with events := events } : State σ α) with scope := [] } =
          (o, { u with scope := [] }) := by
      rw [hnode', Node.run, invoke_scope, hq]
    have hscope := invoke_keepsScope q host limit d target { t with events := events }
    rw [hq] at hagree hscope
    rw [invoke_miss q host limit hproxy' hm', he]
    refine hagree.elim (fun e ho => ho) fun ho hu => ?_
    obtain ⟨result, rfl⟩ | ⟨e, rfl⟩ := o.ended_or_aborted
    · obtain ⟨events', hl⟩ := State.leave_eq q first' t.cursor result
        (({ u with scope := t.scope } : State σ α).remember q proxy t.cursor result)
      rw [evaluate_ended q host (q.invoke host limit d) proxy first' hrun, hl]
      refine Or.inr ⟨ho, ?_⟩
      rw [State.remember_eq]
      refine { hu with scope := hscope.symm.trans hu.scope, events := False.elim, memo := ?_ }
      dsimp only
      split
      · exact hu.memo.insert_right t.cursor.offset _
      · exact hu.memo
    · rw [evaluate_aborted q host (q.invoke host limit d) proxy first' hrun]
      exact Or.inr ⟨ho, { hu with scope := hscope.symm.trans hu.scope }⟩

end Program

/-- Unless the first program's parse ends at the limit of nested rules, that of the second one comes
to the same, with the same calls. -/
def Program.Follows (q p : Program) : Prop :=
  ∀ {σ α ε : Type} (host : Host σ α ε) (memory : σ) (input : String) (how : ParseOptions),
    (∀ limit offset,
      (p.parse host memory input how).outcome ≠ .error (.nestingLimit limit offset)) →
    (q.parse host memory input how).outcome = (p.parse host memory input how).outcome ∧
    (q.parse host memory input how).calls = (p.parse host memory input how).calls

namespace Program.Follows

variable {p q r : Program}

theorem refl (p : Program) : p.Follows p := fun _ _ _ _ _ => ⟨rfl, rfl⟩

theorem trans (h : q.Follows p) (h' : r.Follows q) : r.Follows p := by
  intro σ α ε host memory input how hp
  obtain ⟨houtcome, hcalls⟩ := h host memory input how hp
  obtain ⟨houtcome', hcalls'⟩ := h' host memory input how (houtcome ▸ hp)
  exact ⟨houtcome'.trans houtcome, hcalls'.trans hcalls⟩

theorem of_mirrors {grammar grammar' : Grammar} {options : Options}
    (h : grammar.Mirrors options grammar') (hp : grammar.Denotes options p)
    (hq : grammar'.Denotes options q) : q.Follows p := by
  intro σ α ε host memory input how _
  rw [h.parse_eq hp hq host memory input how]
  exact ⟨rfl, rfl⟩

end Program.Follows

namespace Expr

theorem Denotes.eq_ruleRef {ruleIndex : String → Option RuleId} {forSpeed : Bool}
    {expectations : Array Expectation} {span : Span} {name : String} {node : Node} {id : RuleId}
    (h : (Expr.ruleRef span name).Denotes ruleIndex forSpeed expectations node)
    (hi : ruleIndex name = some id) : node = .ruleRef id := by
  cases h with
  | ruleRef _ _ id' hi' =>
    cases hi.symm.trans hi'
    rfl

end Expr

namespace Grammar

variable {grammar : Grammar} {options : Options} {p q : Program} {rule : RuleId → Bool}
  {calls : String → String → Prop} {proxy target : String} {i j : RuleId} {span : Span}

/-- With the references to a proxy led past it, rules keep in step. -/
theorem redirect_lockstep (hp : grammar.Denotes options p)
    (hq : (grammar.redirect proxy target).Denotes options q) (hg : p.Guarded rule calls)
    (hi : grammar.ruleIndex? proxy = some i) (hj : grammar.ruleIndex? target = some j)
    (hproxy : ∃ first, grammar.rule? proxy = some first ∧ first.expr = .ruleRef span target)
    (hne : target ≠ proxy) (host : Host σ α ε) (limit depth : Nat) {depth' : Nat}
    (hd : depth ≤ depth') {name name' : String} {id id' : RuleId}
    (hpast : Expr.LedPast proxy target name name') (hid : grammar.ruleIndex? name = some id)
    (hid' : grammar.ruleIndex? name' = some id') :
    Lockstep (bypassing text rule i j p.expectations q.expectations)
      (p.invoke host limit depth id) (q.invoke host limit depth' id') := by
  have hindex : (grammar.redirect proxy target).ruleIndex? = grammar.ruleIndex? :=
    ruleIndex?_of_names (mimics_redirect proxy target grammar).names
  have hcached : q.cached = p.cached := hq.cached.trans hp.cached.symm
  obtain ⟨first, hr, hexpr⟩ := hproxy
  obtain ⟨first', foundProxy, hr', hfp, hnamep, hdp⟩ := hp.exists_found hi
  cases hr.symm.trans hr'
  rw [hexpr] at hdp
  have hnode : foundProxy.node = .ruleRef j := hdp.eq_ruleRef hj
  have hdiffer {name : String} {id : RuleId} (hid : grammar.ruleIndex? name = some id)
      (hn : name ≠ proxy) : id ≠ i := by
    rintro rfl
    exact hn (ruleIndex?_inj hid hi)
  -- On the depth of the first program; the second one may go deeper, as it saves the step through
  -- the proxy.
  induction depth using Nat.strongRecOn generalizing depth' name name' id id' with
  | _ depth ih =>
    by_cases hn : name = proxy
    · rw [Expr.LedPast, if_pos hn] at hpast
      subst hn hpast
      cases hi.symm.trans hid
      cases hj.symm.trans hid'
      obtain ⟨-, found, -, hf, -⟩ := hp.exists_found hj
      obtain ⟨-, found', -, hf', -⟩ := hq.exists_found (hindex ▸ hj)
      refine Program.bypass_proxy host hg hcached hfp hnode (hdiffer hj hne) hf hf' ?_
      rintro d rfl
      refine ih d (Nat.lt_succ_self d) (by omega) ?_ hj hj
      rw [Expr.LedPast, if_neg hne]
    · rw [Expr.LedPast, if_neg hn] at hpast
      subst hpast
      cases hid.symm.trans hid'
      obtain ⟨source, found, hs, hf, -, hnodes⟩ := hp.exists_found hid
      obtain ⟨source', found', hs', hf', -, hnodes'⟩ := hq.exists_found (hindex ▸ hid)
      obtain ⟨same, hsame, hmimics⟩ := (mimics_redirect proxy target grammar).rule? hs'
      cases hs.symm.trans hsame
      refine Program.bypass_rule host hg hcached hfp (hdiffer hid hn) hf hf' ?_ hd ?_
      · rintro rfl
        refine hg.leftCalls i foundProxy hfp id ?_ found hf
        rw [hnode]
        exact List.mem_singleton_self id
      · rintro d d' rfl hd
        exact hmimics.lockstep host
          (fun n n' k k' hpast hk hk' => ih d (Nat.lt_succ_self d) hd hpast hk (hindex ▸ hk'))
          (fun id => q.invoke_keepsScope host limit d' id) hnodes hnodes'

theorem rule?_redirect (old new : String) (grammar : Grammar) (name : String) :
    (grammar.redirect old new).rule? name = (grammar.rule? name).map fun rule =>
      { rule with expr := rule.expr.rebuild (Expr.redirectRef old new) } := by
  unfold rule? redirect rebuild
  rw [List.find?_map]
  rfl

/-- Parsing starts alike, be it from the proxy. -/
theorem redirect_start (hp : grammar.Denotes options p)
    (hq : (grammar.redirect proxy target).Denotes options q) (hg : p.Guarded rule calls)
    (hi : grammar.ruleIndex? proxy = some i) (hj : grammar.ruleIndex? target = some j)
    (hproxy : ∃ first, grammar.rule? proxy = some first ∧ first.expr = .ruleRef span target)
    (hne : target ≠ proxy) (host : Host σ α ε) (depth : Nat) {name : String} {id : RuleId}
    (hid : grammar.ruleIndex? name = some id) {s t : State σ α}
    (hst : s.Alike (bypassing text rule i j p.expectations q.expectations : Comparison α ε) t)
    (hs : s.memo = .empty) (ht : t.memo = .empty) :
    Agree (bypassing text rule i j p.expectations q.expectations)
      (p.invoke host depth depth id s) (q.invoke host depth depth id t) := by
  by_cases hn : name = proxy
  · subst hn
    cases hi.symm.trans hid
    have hindex : (grammar.redirect name target).ruleIndex? = grammar.ruleIndex? :=
      ruleIndex?_of_names (mimics_redirect name target grammar).names
    have hi' : (grammar.redirect name target).ruleIndex? name = some i := hindex ▸ hi
    have hj' : (grammar.redirect name target).ruleIndex? target = some j := hindex ▸ hj
    obtain ⟨first, hr, hexpr⟩ := hproxy
    obtain ⟨source, found, hr', hf, -, hd⟩ := hp.exists_found hi
    obtain ⟨source', found', hr'', hf', -, hd'⟩ := hq.exists_found hi'
    obtain ⟨-, next, -, hnext, -⟩ := hp.exists_found hj
    cases hr.symm.trans hr'
    rw [rule?_redirect, hr] at hr''
    cases hr''
    have hkeep : (Expr.ruleRef span target).rebuild (Expr.redirectRef name target) =
        .ruleRef span target := by
      change Expr.redirectRef name target (.ruleRef span target) = _
      rw [Expr.redirectRef, if_neg hne]
    dsimp only at hd'
    rw [hexpr, hkeep] at hd'
    rw [hexpr] at hd
    have hmiss (program : Program) {u : State σ α} (hu : u.memo = .empty) :
        u.memoized? program i = none := by
      unfold State.memoized?
      rw [hu, Memo.find?_empty, ite_self]
    refine Program.bypass_start host hg hf (hd.eq_ruleRef hj) hf' (hd'.eq_ruleRef hj') ?_ hnext hst
      (hmiss p hs) (hmiss q ht) fun d _ => ?_
    · rintro rfl
      exact hne (ruleIndex?_inj hj hi)
    · refine redirect_lockstep hp hq hg hi hj ⟨first, hr, hexpr⟩ hne host depth d le_rfl ?_ hj hj
      rw [Expr.LedPast, if_neg hne]
  · refine redirect_lockstep hp hq hg hi hj hproxy hne host depth depth le_rfl ?_ hid hid s t hst
    rw [Expr.LedPast, if_neg hn]

/-- Leading references past a proxy changes no parse that does not end at the limit of nested rules,
but for its events. -/
theorem redirect_follows (hp : grammar.assemble options = .ok p)
    (hq : (grammar.redirect proxy target).assemble options = .ok q) {named : String → Bool}
    (hg : grammar.Guarded named)
    (hproxy : ∃ first, grammar.rule? proxy = some first ∧ first.expr = .ruleRef span target)
    (hne : target ≠ proxy) : q.Follows p := by
  intro σ α ε host memory input how hlimit
  have hdp := denotes_of_assemble hp
  have hdq := denotes_of_assemble hq
  have hguarded := (becomes_of_assemble hp).guarded hg
  obtain ⟨first, hr, hexpr⟩ := hproxy
  obtain ⟨i, hi, -⟩ := ruleIndex?_of_rule? hr
  obtain ⟨j, hj⟩ : ∃ j, grammar.ruleIndex? target = some j := by
    refine (resolved_of_assemble hp).refs first (List.mem_of_find?_eq_some hr) target ?_
    rw [hexpr, Expr.refs_ruleRef]
    exact List.mem_singleton_self target
  have hindex : (grammar.redirect proxy target).ruleIndex? = grammar.ruleIndex? :=
    ruleIndex?_of_names (mimics_redirect proxy target grammar).names
  have hfirst : (grammar.redirect proxy target).firstRule? = grammar.firstRule? :=
    firstRule?_of_names (mimics_redirect proxy target grammar).names
  have hstart : (options.startRules (grammar.redirect proxy target).firstRule?) =
      options.startRules grammar.firstRule? := congrArg options.startRules hfirst
  cases hn : startName (options.startRules grammar.firstRule?) how.startRule with
  | error e =>
    have hp' := hdp.findStart_of_error hn
    have hq' := hdq.findStart_of_error (hstart ▸ hn)
    simp only [Program.parse, hp', hq']
    exact ⟨trivial, trivial⟩
  | ok name =>
    obtain ⟨id, hid, hs⟩ := hdp.findStart_of_ok hn
    obtain ⟨id', hid', hs'⟩ := hdq.findStart_of_ok (hstart ▸ hn)
    cases hid.symm.trans (hindex ▸ hid')
    have hagree := Program.parse_agree (p := p) (q := q)
      (k := bypassing (.ofText input) (fun id => (p.ruleName? id).any named) i j p.expectations
        q.expectations) rfl rfl (hdq.endExpectation.trans hdp.endExpectation.symm)
      (hdq.initializer.trans hdp.initializer.symm) memory input hs hs' (Cursor.reaches_refl _)
      Bypassed.empty fun s t hst hs ht =>
        redirect_start hdp hdq hguarded hi hj ⟨first, hr, hexpr⟩ hne host how.maxDepth hid hst hs ht
    obtain ⟨e, he, limit, offset, rfl⟩ | ⟨houtcome, hcalls, -⟩ := hagree
    · exact absurd he (hlimit limit offset)
    · exact ⟨houtcome, hcalls⟩

end Grammar
end Peg
