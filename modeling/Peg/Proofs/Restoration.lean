import Peg.Proofs.Cursor
import Peg.Proofs.Steps

/-! The contract between matchers. One that fails gives the cursor and the labels back as they were;
one that matches moves the cursor forward in the same text and only adds labels. Whether failures
are recorded is in both cases what it was. Every node keeps the contract if the rules do, which they
do in turn as long as the memo holds nothing else. -/
namespace Peg

variable {σ α ε β : Type} {text : Cursor} {Kept : RuleId → Cursor → RuleResult α → Prop}

/-- The cursor is in the text, and what the memo knows of its places is what may be kept. -/
structure State.Sound (text : Cursor) (Kept : RuleId → Cursor → RuleResult α → Prop)
    (s : State σ α) : Prop where
  inText : text.Reaches s.cursor
  kept : ∀ id c result, text.Reaches c → s.memo.find? id c.offset = some result → Kept id c result

/-- A parse begins with nothing kept. -/
theorem State.sound_initial (input : String) (memory : σ) (calls : List (Call α))
    {Kept : RuleId → Cursor → RuleResult α → Prop} :
    ({ initial input memory with calls := calls } : State σ α).Sound (.ofText input) Kept :=
  ⟨Cursor.reaches_refl _, fun id c _ _ hf =>
    absurd ((Memo.find?_empty id c.offset).symm.trans hf) nofun⟩

/-- How a step may leave the state `s`. -/
def State.Permits (text : Cursor) (Kept : RuleId → Cursor → RuleResult α → Prop) (s : State σ α) :
    Outcome ε β × State σ α → Prop
  | (.matched _, s') => s'.Sound text Kept ∧ s'.muted = s.muted ∧
      s.cursor.Reaches s'.cursor ∧ ∃ bound, s'.scope = bound ++ s.scope
  | (.failed, s') => s'.Sound text Kept ∧ s'.muted = s.muted ∧
      s'.cursor = s.cursor ∧ s'.scope = s.scope
  | (.aborted _, _) => True

def Restores (text : Cursor) (Kept : RuleId → Cursor → RuleResult α → Prop)
    (m : Step σ α ε β) : Prop :=
  ∀ s : State σ α, s.Sound text Kept → s.Permits text Kept (m s)

namespace State

theorem permits_recordFailure {s : State σ α} (hs : s.Sound text Kept)
    (expectation : ExpectationId) :
    s.Permits text Kept ((.failed : Outcome ε β), s.recordFailure expectation) := by
  obtain ⟨furthest, expected, he⟩ := recordFailure_eq expectation s
  rw [he]
  exact ⟨⟨hs.inText, hs.kept⟩, rfl, rfl, rfl⟩

/-- A result may be kept at a place of the text if it is of the kind that is kept there. -/
theorem sound_remember (program : Program) {id : RuleId} {c : Cursor} {result : Option (Value α)}
    {s : State σ α} (hs : s.Sound text Kept) (hc : text.Reaches c)
    (hk : Kept id c ⟨result, s.cursor⟩) : (s.remember program id c result).Sound text Kept := by
  rw [remember_eq]
  refine ⟨hs.inText, fun id' c' result' hc' h => ?_⟩
  split at h
  · rw [Memo.find?_insert] at h
    split at h
    · rename_i he
      obtain ⟨rfl, ho⟩ := Prod.mk.inj he
      cases Cursor.eq_of_offset_eq hc hc' ho
      cases h
      exact hk
    · exact hs.kept id' c' result' hc' h
  · exact hs.kept id' c' result' hc' h

/-- A terminal that matches only moves the cursor. -/
theorem permits_moved {s : State σ α} (hs : s.Sound text Kept) {stop : Cursor}
    (hr : s.cursor.Reaches stop) (value : β) :
    s.Permits text Kept ((.matched value : Outcome ε β), { s with cursor := stop }) :=
  ⟨⟨Cursor.reaches_trans hs.inText hr, hs.kept⟩, rfl, hr, [], rfl⟩

/-- The labels may always be given back as they were. -/
theorem permits_rescope {s s' : State σ α} {o : Outcome ε β} (h : s.Permits text Kept (o, s')) :
    s.Permits text Kept (o, { s' with scope := s.scope }) := by
  cases o with
  | matched value => exact ⟨⟨h.1.inText, h.1.kept⟩, h.2.1, h.2.2.1, [], rfl⟩
  | failed => exact ⟨⟨h.1.inText, h.1.kept⟩, h.2.1, h.2.2.1, rfl⟩
  | aborted e => trivial

end State

namespace Matcher

theorem literal_restores (matcher : LiteralMatcher) (expectation : ExpectationId) :
    Restores text Kept (literal matcher expectation : Matcher σ α ε) := by
  intro s hs
  unfold literal
  split
  · rename_i stop hm
    exact State.permits_moved hs (LiteralMatcher.reaches_of_matchAt hm) _
  · exact State.permits_recordFailure hs expectation

theorem char_restores (accepts : Char → Bool) (expectation : ExpectationId) :
    Restores text Kept (char accepts expectation : Matcher σ α ε) := by
  intro s hs
  unfold char
  split
  · split
    · exact State.permits_moved hs s.cursor.reaches_next _
    · exact State.permits_recordFailure hs expectation
  · exact State.permits_recordFailure hs expectation

theorem isolate_restores {m : Matcher σ α ε} (hm : Restores text Kept m) :
    Restores text Kept (isolate m) := by
  intro s hs
  have h := hm s hs
  rcases he : m s with ⟨o, s'⟩
  rw [he] at h
  rw [isolate_eq he]
  exact State.permits_rescope h

theorem mute_restores {m : Matcher σ α ε} (hm : Restores text Kept m) :
    Restores text Kept (mute m) := by
  intro s hs
  have h := hm { s with muted := true } ⟨hs.inText, hs.kept⟩
  rcases he : m { s with muted := true } with ⟨o, s'⟩
  rw [he] at h
  rw [mute_eq he]
  cases o with
  | matched value => exact ⟨⟨h.1.inText, h.1.kept⟩, rfl, h.2.2⟩
  | failed => exact ⟨⟨h.1.inText, h.1.kept⟩, rfl, h.2.2⟩
  | aborted e => trivial

theorem mapValue_restores (f : String → Value α → Value α) {m : Matcher σ α ε}
    (hm : Restores text Kept m) : Restores text Kept (mapValue f m) := by
  intro s hs
  have h := hm s hs
  unfold mapValue
  rcases he : m s with ⟨o, s'⟩
  rw [he] at h
  cases o with
  | matched value => exact h
  | failed => exact h
  | aborted e => trivial

theorem labeled_restores (label : String) {m : Matcher σ α ε} (hm : Restores text Kept m) :
    Restores text Kept (labeled label m) := by
  intro s hs
  have h := isolate_restores hm s hs
  unfold labeled
  rcases he : isolate m s with ⟨o, s'⟩
  rw [he] at h
  cases o with
  | matched value =>
    obtain ⟨hs', hmuted, hreach, bound, hbound⟩ := h
    exact ⟨⟨hs'.inText, hs'.kept⟩, hmuted, hreach, (label, value) :: bound,
      congrArg (List.cons (label, value)) hbound⟩
  | failed => exact h
  | aborted e => trivial

theorem named_restores (expectation : ExpectationId) {m : Matcher σ α ε}
    (hm : Restores text Kept m) : Restores text Kept (named expectation m) := by
  intro s hs
  have h := mute_restores (isolate_restores hm) s hs
  unfold named
  rcases he : mute (isolate m) s with ⟨o, s'⟩
  rw [he] at h
  cases o with
  | matched value => exact h
  | failed =>
    obtain ⟨hs', hmuted, hcursor, hscope⟩ := h
    obtain ⟨furthest, expected, hr⟩ := State.recordFailure_eq expectation s'
    simp only [fail, hr]
    exact ⟨⟨hs'.inText, hs'.kept⟩, hmuted, hcursor, hscope⟩
  | aborted e => trivial

theorem optional_restores {m : Matcher σ α ε} (hm : Restores text Kept m) :
    Restores text Kept (optional m) := by
  intro s hs
  have h := isolate_restores hm s hs
  unfold optional
  rcases he : isolate m s with ⟨o, s'⟩
  rw [he] at h
  cases o with
  | matched value => exact h
  | failed =>
    obtain ⟨hs', hmuted, hcursor, hscope⟩ := h
    exact ⟨hs', hmuted, ⟨0, hcursor⟩, [], hscope⟩
  | aborted e => trivial

theorem lookahead_restores (negated : Bool) {m : Matcher σ α ε} (hm : Restores text Kept m) :
    Restores text Kept (lookahead negated m) := by
  intro s hs
  rcases he : m { s with muted := true } with ⟨o, s'⟩
  have h := hm { s with muted := true } ⟨hs.inText, hs.kept⟩
  rw [he] at h
  have hm' : mute (isolate m) s = (o, { s' with scope := s.scope, muted := s.muted }) :=
    mute_eq (isolate_eq he)
  unfold lookahead
  rw [hm']
  cases o with
  | matched value =>
    cases negated with
    | false => exact ⟨⟨hs.inText, h.1.kept⟩, rfl, ⟨0, rfl⟩, [], rfl⟩
    | true => exact ⟨⟨hs.inText, h.1.kept⟩, rfl, rfl, rfl⟩
  | failed =>
    cases negated with
    | false => exact ⟨⟨hs.inText, h.1.kept⟩, rfl, rfl, rfl⟩
    | true => exact ⟨⟨hs.inText, h.1.kept⟩, rfl, ⟨0, rfl⟩, [], rfl⟩
  | aborted e => trivial

/-- The rounds of a repetition leave no labels behind, and without a round the cursor stays. -/
theorem Rounds.restores {m : Matcher σ α ε} (hm : Restores text Kept m) {bound : List Char}
    {s s' : State σ α} (hs : s.Sound text Kept) {values : List (Value α)}
    (h : Rounds m bound s (.matched values) s') :
    s'.Sound text Kept ∧ s'.muted = s.muted ∧ s.cursor.Reaches s'.cursor ∧ s'.scope = s.scope ∧
      (values = [] → s'.cursor = s.cursor) := by
  generalize ho : Outcome.matched values = o at h
  induction h generalizing values with
  | failed h =>
    obtain ⟨hs', hmuted, hcursor, -⟩ := h ▸ hm _ hs
    cases ho
    exact ⟨⟨hs'.inText, hs'.kept⟩, hmuted, ⟨0, hcursor⟩, rfl, fun _ => hcursor⟩
  | aborted h => cases ho
  | last h hend =>
    obtain ⟨hs', hmuted, hreach, -⟩ := h ▸ hm _ hs
    cases ho
    exact ⟨⟨hs'.inText, hs'.kept⟩, hmuted, hreach, rfl, nofun⟩
  | again h hmoved hrest ih =>
    obtain ⟨others, rfl, hv⟩ := Outcome.map_eq_matched.mp ho.symm
    obtain ⟨hs', hmuted, hreach, -⟩ := h ▸ hm _ hs
    obtain ⟨hsound, hmuted', hreach', hscope, -⟩ := ih ⟨hs'.inText, hs'.kept⟩ rfl
    refine ⟨hsound, hmuted'.trans hmuted, Cursor.reaches_trans hreach hreach', hscope, fun hn => ?_⟩
    cases hv.trans hn

theorem repeated_restores (needsOne : Bool) {m : Matcher σ α ε} (hm : Restores text Kept m) :
    Restores text Kept (repeated needsOne m) := by
  intro s hs
  obtain ⟨o, s', h⟩ := exists_rounds m s.cursor.rest s
  rw [repeated_eq needsOne h]
  cases o with
  | matched values =>
    obtain ⟨hs', hmuted, hreach, hscope, hnil⟩ := h.restores hm hs
    dsimp only
    split
    · rename_i hv
      rw [Bool.and_eq_true, List.isEmpty_iff] at hv
      exact ⟨hs', hmuted, hnil hv.2, hscope⟩
    · exact ⟨hs', hmuted, hreach, [], hscope⟩
  | failed => exact absurd rfl h.ne_failed
  | aborted e => trivial

/-- A bound that the characters left do not exceed has no say. -/
theorem Rounds.of_length_le {m : Matcher σ α ε} (hm : Restores text Kept m)
    {bound bound' : List Char} {s s' : State σ α} {o : Outcome ε (List (Value α))}
    (h : Rounds m bound s o s') (hs : s.Sound text Kept)
    (hb : s.cursor.rest.length ≤ bound.length) (hb' : s.cursor.rest.length ≤ bound'.length) :
    Rounds m bound' s o s' := by
  induction h generalizing bound' with
  | failed h => exact .failed h
  | aborted h => exact .aborted h
  | @last bound s t value h hend =>
    have hp := h ▸ hm s hs
    refine .last h (Or.inl (hend.elim id fun hnil => Decidable.by_contra fun hmoved => ?_))
    have hlt := Cursor.rest_length_lt_of_reaches hp.2.2.1 hmoved
    rw [hnil, List.length_nil] at hb
    omega
  | @again c bound s t s' value o h hmoved hrest ih =>
    have hp := h ▸ hm s hs
    have hlt := Cursor.rest_length_lt_of_reaches hp.2.2.1 hmoved
    obtain ⟨c', rest', rfl⟩ := List.exists_cons_of_length_pos (by omega : 0 < bound'.length)
    rw [List.length_cons] at hb hb'
    exact .again h hmoved (ih ⟨hp.1.inText, hp.1.kept⟩
      (Nat.le_of_lt_succ (Nat.lt_of_lt_of_le hlt hb))
      (Nat.le_of_lt_succ (Nat.lt_of_lt_of_le hlt hb')))

theorem repeated_failed {m : Matcher σ α ε} {s t : State σ α} (h : m s = (.failed, t)) :
    repeated false m s = (.matched (.list []), { t with scope := s.scope }) :=
  repeated_eq false (.failed h)

theorem repeated_aborted {m : Matcher σ α ε} {s t : State σ α} {e : ParseError ε}
    (h : m s = (.aborted e, t)) :
    repeated false m s = (.aborted e, { t with scope := s.scope }) :=
  repeated_eq false (.aborted h)

theorem repeated_empty {m : Matcher σ α ε} {s t : State σ α} {value : Value α}
    (h : m s = (.matched value, t)) (hc : t.cursor = s.cursor) :
    repeated false m s = (.matched (.list [value]), { t with scope := s.scope }) :=
  repeated_eq false (.last h (Or.inl (congrArg Cursor.offset hc)))

/-- Behind a round that consumes something, a repetition begins anew. -/
theorem repeated_round {m : Matcher σ α ε} (hm : Restores text Kept m) {s t : State σ α}
    (hs : s.Sound text Kept) {value : Value α} (h : m s = (.matched value, t))
    (hc : t.cursor ≠ s.cursor) {o : Outcome ε (Value α)} {s' : State σ α}
    (hr : repeated false m { t with scope := s.scope } = (o, s')) :
    repeated false m s = (o.map value.cons, s') := by
  have hp := hm s hs
  rw [h] at hp
  obtain ⟨hs', -, hreach, -⟩ := hp
  have ho : t.cursor.offset ≠ s.cursor.offset :=
    fun he => hc (Cursor.eq_of_reaches_of_offset hreach he)
  have hlt := Cursor.rest_length_lt_of_reaches hreach ho
  obtain ⟨c, rest, hb⟩ := List.exists_cons_of_length_pos (by omega : 0 < s.cursor.rest.length)
  rw [hb, List.length_cons] at hlt
  obtain ⟨o', t', hrest⟩ := exists_rounds m t.cursor.rest { t with scope := s.scope }
  -- The rounds behind this one are bounded by what was left of the text before it, which is as good
  -- as what is left of it now.
  have hrest' : Rounds m rest { t with scope := s.scope } o' t' :=
    hrest.of_length_le hm ⟨hs'.inText, hs'.kept⟩ (Nat.le_refl _) (Nat.le_of_lt_succ hlt)
  have hall : Rounds m s.cursor.rest s (o'.map (value :: ·)) t' := hb ▸ .again h ho hrest'
  rw [repeated_eq false hrest] at hr
  rw [repeated_eq false hall]
  cases o' with
  | matched values => cases hr; rfl
  | failed => cases hr; rfl
  | aborted e => cases hr; rfl

theorem repeated_false_ne_failed {m : Matcher σ α ε} {s s' : State σ α} :
    repeated false m s ≠ (.failed, s') := by
  intro he
  obtain ⟨o, t, h⟩ := exists_rounds m s.cursor.rest s
  rw [repeated_eq false h] at he
  cases o with
  | matched values => cases he
  | failed => exact h.ne_failed rfl
  | aborted e => cases he

/-- A repetition without rounds leaves things as they are. -/
theorem repeated_nil {m : Matcher σ α ε} (hm : Restores text Kept m) {s s' : State σ α}
    (hs : s.Sound text Kept) (he : repeated false m s = (.matched (.list []), s')) :
    s'.cursor = s.cursor ∧ s'.scope = s.scope := by
  obtain ⟨o, t, h⟩ := exists_rounds m s.cursor.rest s
  rw [repeated_eq false h] at he
  cases o with
  | matched values =>
    cases he
    obtain ⟨-, -, -, hscope, hnil⟩ := h.restores hm hs
    exact ⟨hnil rfl, hscope⟩
  | failed => cases he
  | aborted e => cases he

/-- A repetition that needs a round is one that does not, unless there is none. -/
theorem repeated_true_eq {m : Matcher σ α ε} {s s' : State σ α} {o : Outcome ε (Value α)} :
    repeated false m s = (o, s') → repeated true m s = (match o with
      | .matched (.list []) => .failed
      | o => o, s') := by
  intro he
  obtain ⟨o', t, h⟩ := exists_rounds m s.cursor.rest s
  rw [repeated_eq false h] at he
  rw [repeated_eq true h]
  cases o' with
  | matched values =>
    cases he
    cases values with
    | nil => rfl
    | cons value values => rfl
  | failed => cases he; rfl
  | aborted e => cases he; rfl

theorem action_restores (host : Host σ α ε) (code : String) {m : Matcher σ α ε}
    (hm : Restores text Kept m) : Restores text Kept (action host code m) := by
  intro s hs
  have h := hm s hs
  rcases he : m s with ⟨o, s'⟩
  rw [he] at h
  rw [action_eq host code he]
  cases o with
  | matched value =>
    dsimp only
    cases (host.action code ⟨s.cursor, s'.cursor, s'.scope.reverse, some value⟩ s'.host).1 with
    | ok result => exact ⟨⟨h.1.inText, h.1.kept⟩, h.2.1, h.2.2.1, [], rfl⟩
    | error e => trivial
  | failed => exact State.permits_rescope h
  | aborted e => trivial

theorem predicate_restores (host : Host σ α ε) (negated : Bool) (code : String) :
    Restores text Kept (predicate host negated code : Matcher σ α ε) := by
  intro s hs
  rw [predicate_eq]
  dsimp only
  cases (host.predicate code ⟨s.cursor, s.cursor, s.scope.reverse, none⟩ s.host).1 with
  | ok answer =>
    dsimp only
    cases answer != negated with
    | true => exact ⟨⟨hs.inText, hs.kept⟩, rfl, s.cursor.reaches_refl, [], rfl⟩
    | false => exact ⟨⟨hs.inText, hs.kept⟩, rfl, rfl, rfl⟩
  | error e => trivial

end Matcher

namespace Node

theorem sequence_restores (host : Host σ α ε) (call : RuleId → Matcher σ α ε) (nodes : List Node)
    (hn : ∀ node ∈ nodes, Restores text Kept (node.run host call)) :
    Restores text Kept ((Node.sequence nodes).run host call) := by
  intro s hs
  induction nodes generalizing s with
  | nil =>
    rw [run_sequence_nil]
    exact ⟨hs, rfl, s.cursor.reaches_refl, [], rfl⟩
  | cons node nodes ih =>
    have h := hn node List.mem_cons_self s hs
    rcases he : node.run host call s with ⟨o, s₁⟩
    rw [he] at h
    rw [run_sequence_cons host call node nodes he]
    cases o with
    | matched value =>
      obtain ⟨hs₁, hmuted, hreach, bound, hbound⟩ := h
      have hrest := ih (fun n hm => hn n (List.mem_cons_of_mem _ hm)) s₁ hs₁
      dsimp only
      rcases hr : (Node.sequence nodes).run host call s₁ with ⟨o, s₂⟩
      rw [hr] at hrest
      cases o with
      | matched values =>
        obtain ⟨hs₂, hmuted', hreach', bound', hbound'⟩ := hrest
        refine ⟨hs₂, hmuted'.trans hmuted, Cursor.reaches_trans hreach hreach', bound' ++ bound, ?_⟩
        rw [hbound', hbound, List.append_assoc]
      | failed =>
        exact ⟨⟨hs.inText, hrest.1.kept⟩, hrest.2.1.trans hmuted, rfl, rfl⟩
      | aborted e => trivial
    | failed => exact ⟨⟨hs.inText, h.1.kept⟩, h.2.1, rfl, rfl⟩
    | aborted e => trivial

theorem choice_restores (host : Host σ α ε) (call : RuleId → Matcher σ α ε) (nodes : List Node)
    (hn : ∀ node ∈ nodes, Restores text Kept (node.run host call)) :
    Restores text Kept ((Node.choice nodes).run host call) := by
  intro s hs
  induction nodes generalizing s with
  | nil =>
    rw [run_choice_nil]
    exact ⟨hs, rfl, rfl, rfl⟩
  | cons node nodes ih =>
    have h := hn node List.mem_cons_self s hs
    rcases he : node.run host call s with ⟨o, s₁⟩
    rw [he] at h
    rw [run_choice_cons host call node nodes he]
    cases o with
    | matched value => exact State.permits_rescope h
    | failed =>
      obtain ⟨hs₁, hmuted, hcursor, -⟩ := h
      have hrest := ih (fun n hm => hn n (List.mem_cons_of_mem _ hm)) { s₁ with scope := s.scope }
        ⟨hs₁.inText, hs₁.kept⟩
      dsimp only
      rcases hr : (Node.choice nodes).run host call { s₁ with scope := s.scope } with ⟨o, s₂⟩
      rw [hr] at hrest
      cases o with
      | matched value =>
        exact ⟨hrest.1, hrest.2.1.trans hmuted, hcursor ▸ hrest.2.2.1, hrest.2.2.2⟩
      | failed =>
        exact ⟨hrest.1, hrest.2.1.trans hmuted, hrest.2.2.1.trans hcursor, hrest.2.2.2⟩
      | aborted e => trivial
    | aborted e => trivial

/-- Every node keeps the contract if the rules do. -/
theorem run_restores (host : Host σ α ε) {call : RuleId → Matcher σ α ε}
    (hc : ∀ id, Restores text Kept (call id)) (node : Node) :
    Restores text Kept (node.run host call) := by
  induction node using Node.induct with
  | literal matcher expectation => rw [run]; exact Matcher.literal_restores matcher expectation
  | charClass matcher expectation => rw [run]; exact Matcher.char_restores _ expectation
  | any expectation => rw [run]; exact Matcher.char_restores _ expectation
  | ruleRef id => rw [run]; exact hc id
  | predicate negated code => rw [run]; exact Matcher.predicate_restores host negated code
  | sequence nodes ih => exact sequence_restores host call nodes ih
  | choice nodes ih => exact choice_restores host call nodes ih
  | wrapped operator body ih =>
    rw [run]
    cases operator with
    | labeled label => exact Matcher.labeled_restores label ih
    | named expectation => exact Matcher.named_restores expectation ih
    | action code => exact Matcher.action_restores host code ih
    | text =>
      exact Matcher.mapValue_restores (fun text _ => .str text) (Matcher.isolate_restores ih)
    | optional => exact Matcher.optional_restores ih
    | zeroOrMore => exact Matcher.repeated_restores false ih
    | oneOrMore => exact Matcher.repeated_restores true ih
    | group => exact Matcher.isolate_restores ih
    | followedBy => exact Matcher.lookahead_restores false ih
    | notFollowedBy => exact Matcher.lookahead_restores true ih

end Node

/-! A state may also be given back by less than the old labels and the old silence: by the number of
labels that were in scope, and by how often silence was asked for. -/
namespace State

/-- The state with the innermost labels dropped, so that no more than `mark` are in scope. -/
def truncated (mark : Nat) (s : State σ α) : State σ α :=
  { s with scope := s.scope.drop (s.scope.length - mark) }

theorem Permits.exists_bound {s s' : State σ α} {o : Outcome ε β}
    (h : s.Permits text Kept (o, s')) (ho : ∀ e, o ≠ .aborted e) :
    ∃ bound, s'.scope = bound ++ s.scope := by
  cases o with
  | matched value => exact h.2.2.2
  | failed => exact ⟨[], h.2.2.2⟩
  | aborted e => exact absurd rfl (ho e)

theorem Permits.muted_eq {s s' : State σ α} {o : Outcome ε β} (h : s.Permits text Kept (o, s'))
    (ho : ∀ e, o ≠ .aborted e) : s'.muted = s.muted := by
  cases o with
  | matched value => exact h.2.1
  | failed => exact h.2.1
  | aborted e => exact absurd rfl (ho e)

theorem truncated_eq {s s' : State σ α} (h : ∃ bound, s'.scope = bound ++ s.scope) :
    s'.truncated s.scope.length = { s' with scope := s.scope } := by
  obtain ⟨bound, hb⟩ := h
  have hlength : s'.scope.length - s.scope.length = bound.length := by
    rw [hb, List.length_append, Nat.add_sub_cancel]
  rw [truncated, hlength, hb, List.drop_left]

end State

namespace Matcher

theorem isolate_eq_truncated {m : Matcher σ α ε} (hm : Restores text Kept m) {s s' : State σ α}
    (hs : s.Sound text Kept) {o : Outcome ε (Value α)} (h : m s = (o, s'))
    (ho : ∀ e, o ≠ .aborted e) : isolate m s = (o, s'.truncated s.scope.length) := by
  have hp : s.Permits text Kept (o, s') := h ▸ hm s hs
  rw [isolate_eq h, State.truncated_eq (hp.exists_bound ho)]

/-- The scope is cut back behind the call of the host, whatever that answers. -/
theorem action_eq_truncated (host : Host σ α ε) (code : String) {m : Matcher σ α ε}
    (hm : Restores text Kept m) {s s' : State σ α} (hs : s.Sound text Kept)
    {o : Outcome ε (Value α)} (h : m s = (o, s')) (ho : ∀ e, o ≠ .aborted e) :
    action host code m s =
      match o with
      | .matched value =>
        let (o, t) := callHost .action code s.cursor (some value) host.action s'
        (o, t.truncated s.scope.length)
      | o => (o, s'.truncated s.scope.length) := by
  have hp : s.Permits text Kept (o, s') := h ▸ hm s hs
  have hbound := hp.exists_bound ho
  cases o with
  | matched value =>
    rcases hcall : callHost .action code s.cursor (some value) host.action s' with ⟨o, t⟩
    have hscope : t.scope = s'.scope := by
      rw [← callHost_scope .action code s.cursor (some value) host.action s', hcall]
    dsimp only
    rw [hcall, State.truncated_eq (hscope ▸ hbound)]
    simp only [action, isolate, h, hcall]
  | failed =>
    rw [State.truncated_eq hbound]
    exact action_eq host code h
  | aborted e => exact absurd rfl (ho e)

/-- Where silence has been asked for `silent` times, once more and once less is as often as before,
if what is done in between leaves that alone, too. -/
theorem mute_eq_counted {m : Matcher σ α ε} (hm : Restores text Kept m) {s s' : State σ α}
    (hs : s.Sound text Kept) {silent : Nat} (hn : s.muted = decide (0 < silent))
    {o : Outcome ε (Value α)} (h : m { s with muted := decide (0 < silent + 1) } = (o, s'))
    (ho : ∀ e, o ≠ .aborted e) :
    s'.muted = decide (0 < silent + 1) ∧
      mute m s = (o, { s' with muted := decide (0 < silent + 1 - 1) }) := by
  have hp : ({ s with muted := decide (0 < silent + 1) } : State σ α).Permits text Kept (o, s') :=
    h ▸ hm _ ⟨hs.inText, hs.kept⟩
  have hraised : decide (0 < silent + 1) = true := decide_eq_true (Nat.succ_pos silent)
  refine ⟨hp.muted_eq ho, ?_⟩
  rw [hraised] at h
  rw [mute_eq h, hn, Nat.add_sub_cancel]

end Matcher

namespace Node

/-- Until a sequence ends, its elements only add labels. -/
theorem runSequence_exists_bound (host : Host σ α ε) {call : RuleId → Matcher σ α ε}
    (hc : ∀ id, Restores text Kept (call id)) (nodes : List Node) {s s' : State σ α}
    (hs : s.Sound text Kept) {o : Outcome ε (List (Value α))}
    (h : runSequence host call nodes s = (o, s')) (ho : ∀ e, o ≠ .aborted e) :
    ∃ bound, s'.scope = bound ++ s.scope := by
  induction nodes generalizing s s' o with
  | nil =>
    rw [runSequence] at h
    cases h
    exact ⟨[], rfl⟩
  | cons node nodes ih =>
    have hp := run_restores host hc node s hs
    rcases he : node.run host call s with ⟨o₁, t⟩
    rw [he] at hp
    rw [runSequence, he] at h
    cases o₁ with
    | matched value =>
      dsimp only at h
      obtain ⟨hs', -, -, bound, hb⟩ := hp
      rcases hr : runSequence host call nodes t with ⟨o₂, u⟩
      rw [hr] at h
      have hgoes : ∀ e, o₂ ≠ .aborted e := by
        intro e he₂
        rw [he₂] at h
        cases h
        exact ho e rfl
      obtain ⟨bound', hb'⟩ := ih hs' hr hgoes
      have hu : s' = u := by cases o₂ <;> cases h <;> rfl
      exact ⟨bound' ++ bound, by rw [hu, hb', hb, List.append_assoc]⟩
    | failed =>
      cases h
      exact ⟨[], hp.2.2.2⟩
    | aborted e =>
      cases h
      exact absurd rfl (ho e)

theorem run_sequence_eq_truncated (host : Host σ α ε) {call : RuleId → Matcher σ α ε}
    (hc : ∀ id, Restores text Kept (call id)) (nodes : List Node) {s s' : State σ α}
    (hs : s.Sound text Kept) (h : runSequence host call nodes s = (.failed, s')) :
    (Node.sequence nodes).run host call s =
      (.failed, { s'.truncated s.scope.length with cursor := s.cursor }) := by
  rw [State.truncated_eq (runSequence_exists_bound host hc nodes hs h nofun), run]
  dsimp only
  rw [h]

end Node
end Peg
