import Mathlib.Data.Finset.Prod
import Peg.Proofs.Contracts

/-! Rules that are open at once, as the events of a run tell. A node never opens a rule twice at one
offset if the rules do not that it may enter at its own offset, and those that are entered further
on. -/
namespace Peg

variable {σ α ε β γ : Type}

def TraceEvent.entering (rule : String) (start : Cursor) : TraceEvent :=
  ⟨.enter, rule, start.spanTo start⟩

/-- The rule that was entered at `start` is left with this result, the cursor being at `stop`. -/
def TraceEvent.leaving (rule : String) (start : Cursor) (result : Option (Value α))
    (stop : Cursor) : TraceEvent :=
  match result with
  | some _ => ⟨.matched, rule, start.spanTo stop⟩
  | none => ⟨.failed, rule, start.spanTo start⟩

theorem TraceEvent.leaving_kind_ne (rule : String) (start : Cursor) (result : Option (Value α))
    (stop : Cursor) : (leaving rule start result stop).kind ≠ .enter := by
  cases result <;> nofun

/-- The rules that are open behind the event, with the offsets where they were entered, if `opened`
are those before it. The last one entered comes first. -/
def TraceEvent.openAfter (opened : List (String × Nat)) (event : TraceEvent) :
    List (String × Nat) :=
  if event.kind = .enter then (event.rule, event.span.start.offset) :: opened else opened.tail

def openAfter (opened : List (String × Nat)) (events : List TraceEvent) : List (String × Nat) :=
  events.foldl TraceEvent.openAfter opened

/-- At no moment of the events is a rule open twice at one offset. -/
def Apart (opened : List (String × Nat)) (events : List TraceEvent) : Prop :=
  ∀ before, before <+: events → (openAfter opened before).Nodup

theorem apart_nil {opened : List (String × Nat)} (h : opened.Nodup) : Apart opened [] := by
  intro before hp
  rw [List.prefix_nil.mp hp]
  exact h

theorem apart_append {opened : List (String × Nat)} {events events' : List TraceEvent}
    (h : Apart opened events) (h' : Apart (openAfter opened events) events') :
    Apart opened (events ++ events') := by
  intro before hp
  rcases List.prefix_or_prefix_of_prefix hp (List.prefix_append events events') with
    hl | ⟨rest, rfl⟩
  · exact h before hl
  · rw [openAfter, List.foldl_append]
    exact h' rest ((List.prefix_append_right_inj events).mp hp)

theorem apart_singleton {opened : List (String × Nat)} {event : TraceEvent} (h : opened.Nodup)
    (h' : (event.openAfter opened).Nodup) : Apart opened [event] := by
  intro before hp
  rcases List.prefix_cons_iff.mp hp with rfl | ⟨rest, rfl, hr⟩
  · exact h
  · rw [List.prefix_nil.mp hr]
    exact h'

/-- Rules that differ in name or offset are no more than the names and the offsets allow. -/
theorem length_le_of_nodup {opened : List (String × Nat)} (h : opened.Nodup) {names : List String}
    {n : Nat} (hb : ∀ entry ∈ opened, entry.1 ∈ names ∧ entry.2 ≤ n) :
    opened.length ≤ names.length * (n + 1) := by
  have hsub : opened.toFinset ⊆ names.toFinset ×ˢ Finset.range (n + 1) := by
    intro entry hm
    obtain ⟨hname, hle⟩ := hb entry (List.mem_toFinset.mp hm)
    exact Finset.mem_product.mpr
      ⟨List.mem_toFinset.mpr hname, Finset.mem_range.mpr (Nat.lt_succ_of_le hle)⟩
  calc
    opened.length = opened.toFinset.card := (List.toFinset_card_of_nodup h).symm
    _ ≤ (names.toFinset ×ˢ Finset.range (n + 1)).card := Finset.card_le_card hsub
    _ = names.toFinset.card * (n + 1) := by rw [Finset.card_product, Finset.card_range]
    _ ≤ names.length * (n + 1) := Nat.mul_le_mul_right _ (List.toFinset_card_le names)

/-- How a step may end that starts in `s` with the rules `opened` open. It keeps rules apart and
closes what it opens, unless the parse ends in it; and where `deep` holds, the parse does not end in
it because too many rules are open. -/
def State.Nests (deep : Prop) (opened : List (String × Nat)) (s : State σ α)
    (result : Outcome ε β × State σ α) : Prop :=
  (deep → ∀ limit offset, result.1 ≠ .aborted (.nestingLimit limit offset)) ∧
    ∃ events, result.2.events = events.reverse ++ s.events ∧ Apart opened events ∧
      ((∀ e, result.1 ≠ .aborted e) → openAfter opened events = opened)

namespace State

variable {deep : Prop} {opened : List (String × Nat)} {s t u : State σ α} {o : Outcome ε β}
  {o' : Outcome ε γ}

theorem nests_of_events_eq (hn : opened.Nodup) (he : t.events = s.events)
    (ho : ∀ limit offset, o ≠ .aborted (.nestingLimit limit offset)) : s.Nests deep opened (o, t) :=
  ⟨fun _ => ho, [], he, apart_nil hn, fun _ => rfl⟩

/-- A step that runs another one and notes nothing itself nests as that does. -/
theorem Nests.around {s' t' : State σ α} (h : s.Nests deep opened (o, t))
    (hs : s'.events = s.events) (ht : t'.events = t.events)
    (ha : ∀ e, o = .aborted e → ∃ e', o' = .aborted e')
    (hl : ∀ limit offset, o' = .aborted (.nestingLimit limit offset) →
      o = .aborted (.nestingLimit limit offset)) : s'.Nests deep opened (o', t') := by
  obtain ⟨hlimit, events, he, hapart, hclosed⟩ := h
  refine ⟨fun hd limit offset hv => hlimit hd limit offset (hl limit offset hv), events, ?_, hapart,
    fun hv => hclosed fun e hv' => ?_⟩
  · rw [hs]
    exact ht.trans he
  · obtain ⟨e', he'⟩ := ha e hv'
    exact hv e' he'

/-- One step behind the other. -/
theorem Nests.trans {t' : State σ α} (h : s.Nests deep opened (o, t)) (hv : ∀ e, o ≠ .aborted e)
    (ht : t'.events = t.events) (h' : t'.Nests deep opened (o', u)) :
    s.Nests deep opened (o', u) := by
  obtain ⟨-, events, he, hapart, hclosed⟩ := h
  obtain ⟨hlimit', events', he', hapart', hclosed'⟩ := h'
  have hc := hclosed hv
  dsimp only at he he'
  refine ⟨hlimit', events ++ events', ?_, apart_append hapart ?_, fun hv' => ?_⟩
  · rw [he', ht, he, List.reverse_append, List.append_assoc]
  · rw [hc]
    exact hapart'
  · rw [openAfter, List.foldl_append]
    exact (congrArg (fun opened => openAfter opened events') hc).trans (hclosed' hv')

end State

variable {text : Cursor} {Kept : RuleId → Cursor → RuleResult α → Prop} {deep : Prop}
  {opened : List (String × Nat)} {p : Nat}

def Nests (text : Cursor) (Kept : RuleId → Cursor → RuleResult α → Prop) (deep : Prop)
    (opened : List (String × Nat)) (p : Nat) (m : Step σ α ε β) : Prop :=
  ∀ s : State σ α, s.Sound text Kept → p ≤ s.cursor.offset → s.Nests deep opened (m s)

def nesting (deep : Prop) (hn : opened.Nodup) : Contract σ α ε where
  Allows := State.Nests deep opened
  still ht ho := State.nests_of_events_eq hn (congrArg Prod.snd ht) ho
  around h hs ht ha hl := h.around (congrArg Prod.snd hs) (congrArg Prod.snd ht)
    (fun e he => ⟨e, ha e he⟩) hl
  trans h hv h' ht := h.trans hv (congrArg Prod.snd ht) h'

/-- A node nests from an offset on if the rules do that it may enter there, and all rules further
on. -/
theorem Node.run_nests {rule : RuleId → Bool} (host : Host σ α ε) {call : RuleId → Matcher σ α ε}
    (hn : opened.Nodup) (hc : ∀ id, Restores text Kept (call id))
    (hk : ∀ id, rule id = true → Consumes text Kept (call id)) (node : Node)
    (hleft : ∀ id ∈ node.leftCalls rule, Nests text Kept deep opened p (call id))
    (hright : ∀ id, Nests text Kept deep opened (p + 1) (call id)) :
    Nests text Kept deep opened p (node.run host call) :=
  node.run_keeps host (k := nesting deep hn) hc hk hleft hright

theorem apart_enter {event : TraceEvent} {events : List TraceEvent} (hn : opened.Nodup)
    (he : event.kind = .enter)
    (h : Apart ((event.rule, event.span.start.offset) :: opened) events) :
    Apart opened (event :: events) := by
  have hopen : event.openAfter opened = (event.rule, event.span.start.offset) :: opened := if_pos he
  have hfirst : Apart opened [event] := by
    refine apart_singleton hn ?_
    rw [hopen]
    exact h [] List.nil_prefix
  refine apart_append hfirst ?_
  change Apart (event.openAfter opened) events
  rw [hopen]
  exact h

namespace State

variable {s t t' : State σ α} {o : Outcome ε β} {o' : Outcome ε γ} {event event' : TraceEvent}

/-- A rule in which the parse ends. -/
theorem Nests.enter (hn : opened.Nodup) (he : event.kind = .enter)
    (h : ({ s with events := event :: s.events } : State σ α).Nests deep
      ((event.rule, event.span.start.offset) :: opened) (o, t)) {e : ParseError ε}
    (ho : o = .aborted e) (ht : t'.events = t.events) :
    s.Nests deep opened ((.aborted e : Outcome ε γ), t') := by
  obtain ⟨hlimit, events, hevents, hapart, -⟩ := h
  subst ho
  refine ⟨fun hd limit offset hv => hlimit hd limit offset ?_, event :: events, ?_,
    apart_enter hn he hapart, fun hv => absurd rfl (hv e)⟩
  · cases hv
    rfl
  · rw [List.reverse_cons, List.append_assoc]
    exact ht.trans hevents

/-- A rule that is entered and left again. -/
theorem Nests.enter_leave (hn : opened.Nodup) (he : event.kind = .enter)
    (he' : event'.kind ≠ .enter)
    (h : ({ s with events := event :: s.events } : State σ α).Nests deep
      ((event.rule, event.span.start.offset) :: opened) (o, t))
    (ho : ∀ e, o ≠ .aborted e) (ho' : ∀ e, o' ≠ .aborted e)
    (ht : t'.events = event' :: t.events) : s.Nests deep opened (o', t') := by
  obtain ⟨-, events, hevents, hapart, hclosed⟩ := h
  have hopen : event.openAfter opened = (event.rule, event.span.start.offset) :: opened := if_pos he
  have hall : openAfter opened (event :: events) =
      (event.rule, event.span.start.offset) :: opened := by
    rw [openAfter, List.foldl_cons, hopen]
    exact hclosed ho
  have hleave : event'.openAfter ((event.rule, event.span.start.offset) :: opened) = opened :=
    if_neg he'
  refine ⟨fun _ limit offset => ho' _, event :: events ++ [event'], ?_, ?_, fun _ => ?_⟩
  · rw [List.reverse_append, List.reverse_singleton, List.reverse_cons, List.append_assoc,
      List.append_assoc]
    exact ht.trans (congrArg (List.cons event') hevents)
  · refine apart_append (apart_enter hn he hapart) ?_
    rw [hall]
    refine apart_singleton (hapart [] List.nil_prefix) ?_
    rw [hleave]
    exact hn
  · rw [openAfter, List.foldl_append]
    exact (congrArg (fun opened => openAfter opened [event']) hall).trans hleave

end State

end Peg
