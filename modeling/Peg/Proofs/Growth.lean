import Peg.Proofs.Contracts
import Peg.Proofs.Places

/-! What runs only ever add to, such as the events that are noted. Then what a part of a node leaves
behind is still there behind the node. -/
namespace Peg

variable {σ α ε : Type}

/-- Something of the results that are kept and the events that are noted to which a run may only
add. -/
structure Growth (α : Type) where
  Le : Memo α × List TraceEvent → Memo α × List TraceEvent → Prop
  refl : ∀ trail, Le trail trail
  trans : ∀ {first second third}, Le first second → Le second third → Le first third

namespace Growth

def ofEvents : Growth α where
  Le first last := first.2 <:+ last.2
  refl _ := List.suffix_rfl
  trans := List.IsSuffix.trans

def ofResults : Growth α where
  Le first last := ∀ id offset result, first.1.find? id offset = some result →
    last.1.find? id offset = some result
  refl _ _ _ _ h := h
  trans h h' id offset result hf := h' id offset result (h id offset result hf)

def contract (g : Growth α) : Contract σ α ε where
  Allows s r := g.Le s.trail r.2.trail
  still ht _ := ht ▸ g.refl _
  around h hs ht _ _ := hs ▸ ht ▸ h
  trans h _ h' ht := g.trans h (ht ▸ h')

end Growth

variable {text : Cursor} {Kept : RuleId → Cursor → RuleResult α → Prop} {g : Growth α}

namespace Operator

variable (host : Host σ α ε) {operator : Operator}

/-- An operator that does not repeat runs what is inside it once, and looks only at what that comes
to. -/
theorem run_once (hz : operator ≠ .zeroOrMore) (ho : operator ≠ .oneOrMore) (m : Matcher σ α ε)
    (s : State σ α) :
    operator.run host m s = operator.run host (fun _ => m (operator.around s)) s := by
  cases operator with
  | zeroOrMore => exact absurd rfl hz
  | oneOrMore => exact absurd rfl ho
  | _ => rfl

/-- It leaves nothing behind itself, and passes on that the parse ends. -/
theorem run_trail (hz : operator ≠ .zeroOrMore) (ho : operator ≠ .oneOrMore) {m : Matcher σ α ε}
    {s t : State σ α} {o : Outcome ε (Value α)} (h : m (operator.around s) = (o, t)) :
    (operator.run host m s).2.trail = t.trail ∧
      ∀ e, o = .aborted e → (operator.run host m s).1 = .aborted e := by
  have hplain (hs : operator.around s = s) : m s = (o, t) := hs ▸ h
  cases operator with
  | zeroOrMore => exact absurd rfl hz
  | oneOrMore => exact absurd rfl ho
  | labeled label => rw [run, Matcher.labeled_eq label (hplain rfl)]; exact ⟨rfl, fun _ h => h⟩
  | group => rw [run, Matcher.isolate_eq (hplain rfl)]; exact ⟨rfl, fun _ h => h⟩
  | text =>
    rw [run, Matcher.mapValue_isolate_eq _ (hplain rfl)]
    exact ⟨rfl, fun e h => by cases h; rfl⟩
  | optional =>
    rw [run, Matcher.optional_eq (hplain rfl)]
    exact ⟨rfl, fun e h => by cases h; rfl⟩
  | followedBy =>
    rw [run, Matcher.lookahead_eq false h]
    exact ⟨rfl, fun e h => by cases h; rfl⟩
  | notFollowedBy =>
    rw [run, Matcher.lookahead_eq true h]
    exact ⟨rfl, fun e h => by cases h; rfl⟩
  | action code =>
    rw [run, Matcher.action_eq host code (hplain rfl)]
    cases o with
    | matched value => exact ⟨rfl, fun e h => by cases h⟩
    | failed | aborted => exact ⟨rfl, fun _ h => h⟩
  | named expectation =>
    rw [run, Matcher.named_eq expectation h]
    cases o with
    | matched | aborted => exact ⟨rfl, fun _ h => h⟩
    | failed =>
      obtain ⟨furthest, expected, hr⟩ := State.recordFailure_eq expectation
        { t with scope := s.scope, muted := s.muted }
      simp only [Matcher.fail, hr]
      exact ⟨rfl, fun e h => by cases h⟩

end Operator

namespace Matcher

variable {m : Matcher σ α ε}

/-- The rounds behind a round only add to what it leaves behind. -/
theorem repeatWithin_grows (hr : Restores text Kept m) (hg : Keeps text Kept g.contract 0 m)
    (bound : List Char) {s : State σ α} (hs : s.Sound text Kept) :
    g.Le (m s).2.trail (repeatWithin m bound s).2.trail := by
  obtain ⟨o, s', h⟩ := exists_rounds m bound s
  rw [h.repeatWithin_eq]
  cases h with
  | failed h | aborted h | last h hend => exact h ▸ g.refl _
  | again h hmoved hrest =>
    have hpermits := h ▸ hr s hs
    rw [h]
    exact hrest.keeps hr hg ⟨hpermits.1.inText, hpermits.1.kept⟩ (Nat.zero_le _)

end Matcher

namespace Node

variable (host : Host σ α ε) {call : RuleId → Matcher σ α ε} {s : State σ α}

/-- The elements behind the first one only add to what it leaves behind. -/
theorem sequence_grows (hr : ∀ id, Restores text Kept (call id))
    (hg : ∀ id, Keeps text Kept g.contract 0 (call id)) (node : Node) (nodes : List Node)
    (hs : s.Sound text Kept) : g.Le (node.run host call s).2.trail
      ((Node.sequence (node :: nodes)).run host call s).2.trail := by
  have hpermits := run_restores host hr node s hs
  rcases hv : node.run host call s with ⟨o, t⟩
  rw [hv] at hpermits
  rw [run_sequence_cons host call node nodes hv]
  cases o with
  | failed | aborted => exact g.refl _
  | matched value =>
    have h := run_keeps_of_all host hr hg (.sequence nodes) t hpermits.1 (Nat.zero_le _)
    dsimp only
    rcases hw : (Node.sequence nodes).run host call t with ⟨o, u⟩
    rw [hw] at h
    cases o <;> exact h

/-- The alternatives behind the first one only add to what it leaves behind. -/
theorem choice_grows (hr : ∀ id, Restores text Kept (call id))
    (hg : ∀ id, Keeps text Kept g.contract 0 (call id)) (node : Node) (nodes : List Node)
    (hs : s.Sound text Kept) : g.Le (node.run host call s).2.trail
      ((Node.choice (node :: nodes)).run host call s).2.trail := by
  have hpermits := run_restores host hr node s hs
  rcases hv : node.run host call s with ⟨o, t⟩
  rw [hv] at hpermits
  rw [run_choice_cons host call node nodes hv]
  cases o with
  | matched | aborted => exact g.refl _
  | failed =>
    exact run_keeps_of_all host hr hg (.choice nodes) { t with scope := s.scope }
      ⟨hpermits.1.inText, hpermits.1.kept⟩ (Nat.zero_le _)

end Node
end Peg
