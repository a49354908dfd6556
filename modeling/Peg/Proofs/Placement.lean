import Mathlib.Tactic.SplitIfs
import Peg.Notation.Reader
import Peg.Proofs.Positions

/-! Where readers land. From a place of the text, a token ends at a place further on, or else there
is an error that shows a part of the text; and where the error tells of something that was opened,
this was opened at a place that is not behind that part. -/
namespace Peg

variable {α β : Type}

/-- The position of what a fault says has been opened and not closed. -/
def Fault.opened? : Fault → Option Position
  | unclosedGroup opened | unterminatedLiteral opened _ _ | unterminatedClass opened _
  | unterminatedCode opened | unterminatedComment opened => some opened
  | _ => none

/-- What the fault says has been opened was opened at a place of the text from which `c` is reached.
-/
def Fault.OpenedBefore (text : Cursor) (fault : Fault) (c : Cursor) : Prop :=
  ∀ position ∈ fault.opened?,
    ∃ opened : Cursor, text.Reaches opened ∧ opened.Reaches c ∧ position = opened.position

def NotationError.Placed (text : Cursor) (e : NotationError) : Prop :=
  ∃ start stop : Cursor, e.span = start.spanTo stop ∧ text.Reaches start ∧ start.Reaches stop ∧
    e.fault.OpenedBefore text start

theorem Fault.OpenedBefore.mono {text c c' : Cursor} {fault : Fault}
    (h : fault.OpenedBefore text c) (hc : c.Reaches c') : fault.OpenedBefore text c' := by
  intro position hp
  obtain ⟨opened, htext, hopened, he⟩ := h position hp
  exact ⟨opened, htext, Cursor.reaches_trans hopened hc, he⟩

theorem Fault.openedBefore_of_none {text c : Cursor} {fault : Fault} (h : fault.opened? = none) :
    fault.OpenedBefore text c := by
  intro position hp
  rw [h] at hp
  cases hp

theorem Fault.openedBefore_self {text c : Cursor} {fault : Fault}
    (h : fault.opened? = some c.position) (hc : text.Reaches c) : fault.OpenedBefore text c := by
  intro position hp
  cases h.symm.trans hp
  exact ⟨c, hc, c.reaches_refl, rfl⟩

theorem NotationError.placed_charSpan {text c : Cursor} {fault : Fault} (hc : text.Reaches c)
    (hf : fault.OpenedBefore text c) : NotationError.Placed text ⟨c.charSpan, fault⟩ :=
  ⟨c, c.next, rfl, hc, c.reaches_next, hf⟩

namespace Cursor

theorem reaches_toEnd (c : Cursor) : c.Reaches c.toEnd := ⟨c.rest.length, rfl⟩

theorem lt_offset_next {c : Cursor} {a : Char} (h : c.peek = some a) :
    c.offset < c.next.offset := by
  obtain ⟨rest, hrest⟩ := peek_eq_some h
  rw [next_offset hrest]
  exact Nat.lt_add_of_pos_right a.utf8Size_pos

end Cursor

namespace Notation

/-- From `c`, the reader gives what has the property, or fails with an error that shows a part of
the text. -/
def Lands (text : Cursor) (r : Reader α) (c : Cursor) (P : α → Cursor → Prop) : Prop :=
  match r c with
  | .ok (a, c') => P a c'
  | .error e => e.Placed text

/-- From every place behind `c`, the reader moves forward, or it fails. -/
def Moves (text c : Cursor) (r : Reader α) : Prop :=
  ∀ c', c.Reaches c' → Lands text r c' fun _ c'' => c'.Reaches c''

section Rules

variable {text c : Cursor} {r : Reader α} {f : α → Reader β} {P P' : α → Cursor → Prop}
  {Q : β → Cursor → Prop}

theorem Lands.bind (h : Lands text r c P) (h' : ∀ a c', P a c' → Lands text (f a) c' Q) :
    Lands text (r >>= f) c Q := by
  unfold Lands at h ⊢
  change match (r c >>= fun p => f p.1 p.2) with
    | .ok (b, c') => Q b c'
    | .error e => e.Placed text
  cases hr : r c with
  | error e => rw [hr] at h; exact h
  | ok p => rw [hr] at h; exact h' p.1 p.2 h

theorem Lands.imp (h : Lands text r c P) (hp : ∀ a c', P a c' → P' a c') : Lands text r c P' := by
  unfold Lands at h ⊢
  cases hr : r c with
  | error e => rw [hr] at h; exact h
  | ok p => rw [hr] at h; exact hp p.1 p.2 h

theorem lands_pure {a : α} (h : P a c) : Lands text (pure a) c P := h

theorem lands_get {f : Cursor → Reader β} (h : Lands text (f c) c Q) :
    Lands text (get >>= f) c Q := h

theorem lands_set {f : PUnit → Reader β} {c' : Cursor} (h : Lands text (f ⟨⟩) c' Q) :
    Lands text (set c' >>= f) c Q := h

theorem lands_peek {f : Option Char → Reader β} (h : Lands text (f c.peek) c Q) :
    Lands text (peek >>= f) c Q := h

theorem lands_advance {f : Unit → Reader β} (h : Lands text (f ()) c.next Q) :
    Lands text (advance >>= f) c Q := h

theorem lands_spanFrom {start : Cursor} {f : Span → Reader β}
    (h : Lands text (f (start.spanTo c)) c Q) : Lands text (spanFrom start >>= f) c Q := h

theorem lands_eat {expected : Char} {f : Bool → Reader β}
    (htrue : c.peek = some expected → Lands text (f true) c.next Q)
    (hfalse : Lands text (f false) c Q) : Lands text (eat expected >>= f) c Q := by
  refine Lands.bind (P := fun found c' =>
    c.peek = some expected ∧ found = true ∧ c' = c.next ∨ found = false ∧ c' = c) ?_ ?_
  · unfold Lands eat
    split_ifs with hc
    · exact Or.inl ⟨hc, rfl, rfl⟩
    · exact Or.inr ⟨rfl, rfl⟩
  · rintro _ _ (⟨hc, rfl, rfl⟩ | ⟨rfl, rfl⟩)
    · exact htrue hc
    · exact hfalse

theorem lands_lookingAt (read : Reader Bool) :
    Lands text (lookingAt read) c fun _ c' => c' = c := by
  unfold Lands lookingAt
  cases read c <;> rfl

theorem lands_failHere {fault : Fault} (hc : text.Reaches c) (hf : fault.OpenedBefore text c) :
    Lands text (failHere fault) c P :=
  NotationError.placed_charSpan hc hf

theorem Moves.bind (h : Moves text c r) (h' : ∀ a, Moves text c (f a)) :
    Moves text c (r >>= f) := by
  intro c₁ h₁
  refine (h c₁ h₁).bind fun a c₂ h₂ => ?_
  refine (h' a c₂ (Cursor.reaches_trans h₁ h₂)).imp fun _ _ h₃ => ?_
  exact Cursor.reaches_trans h₂ h₃

theorem moves_pure (a : α) : Moves text c (pure a) := fun c' _ => c'.reaches_refl

theorem moves_advance : Moves text c advance := fun c' _ => c'.reaches_next

theorem moves_peek : Moves text c peek := fun c' _ => c'.reaches_refl

theorem moves_eat (expected : Char) : Moves text c (eat expected) := by
  intro c' _
  unfold Lands eat
  split_ifs
  · exact c'.reaches_next
  · exact c'.reaches_refl

end Rules

/-- The items are read one behind the other, the first one at `c` and the last one up to `c'`. -/
inductive Successive (Item : Cursor → α → Cursor → Prop) : Cursor → List α → Cursor → Prop
  | nil {c} : Successive Item c [] c
  | cons {c a c' items c''} (first : Item c a c') (others : Successive Item c' items c'') :
      Successive Item c (a :: items) c''

section Collections

variable {text c : Cursor} {step : Reader (Option α)}

/-- What is collected stands in a row, and the cursor is behind it. -/
theorem lands_collect (Item : Cursor → α → Cursor → Prop)
    (h : ∀ c', c.Reaches c' → Lands text step c' fun found c'' =>
      c'.Reaches c'' ∧ ∀ a ∈ found, Item c' a c'') :
    Lands text (collect step) c fun items c'' =>
      c.Reaches c'' ∧ ∃ c', Successive Item c items c' ∧ c'.Reaches c'' := by
  -- The bound is what the loop recurses on; what is read in a round does not depend on it.
  have hwithin (bound : List Char) : ∀ c₁, c.Reaches c₁ →
      Lands text (collectWithin step bound) c₁ fun items c'' =>
        c₁.Reaches c'' ∧ ∃ c', Successive Item c₁ items c' ∧ c'.Reaches c'' := by
    induction bound with
    | nil =>
      intro c₁ h₁
      unfold collectWithin
      refine (h c₁ h₁).bind fun found c₂ ⟨h₂, hfound⟩ => ?_
      cases found with
      | none => exact lands_pure ⟨h₂, c₁, .nil, h₂⟩
      | some a => exact lands_pure ⟨h₂, c₂, .cons (hfound a rfl) .nil, c₂.reaches_refl⟩
    | cons b bound ih =>
      intro c₁ h₁
      unfold collectWithin
      refine (h c₁ h₁).bind fun found c₂ ⟨h₂, hfound⟩ => ?_
      cases found with
      | none => exact lands_pure ⟨h₂, c₁, .nil, h₂⟩
      | some a =>
        refine (ih c₂ (Cursor.reaches_trans h₁ h₂)).bind fun items c₃ ⟨h₃, c', hitems, hc'⟩ => ?_
        exact lands_pure ⟨Cursor.reaches_trans h₂ h₃, c', .cons (hfound a rfl) hitems, hc'⟩
  exact hwithin c.rest c c.reaches_refl

theorem Moves.collect (h : Moves text c step) : Moves text c (collect step) := by
  intro c' hc'
  refine (lands_collect (fun _ _ _ => True) fun c₁ h₁ => ?_).imp fun _ _ h => h.1
  exact (h c₁ (Cursor.reaches_trans hc' h₁)).imp fun _ _ h₂ => ⟨h₂, fun _ _ => trivial⟩

end Collections

section Tokens

variable {text c : Cursor}

theorem moves_triviaPiece (hc : text.Reaches c) : Moves text c triviaPiece := by
  intro c' hc'
  unfold Lands triviaPiece
  cases c'.rest with
  | nil => exact c'.reaches_refl
  | cons a rest =>
    dsimp only
    split_ifs
    · exact c'.reaches_next
    · exact ⟨_, rfl⟩
    · cases commentLength rest.tail with
      | some n => exact ⟨n + 4, rfl⟩
      | none =>
        have htext := Cursor.reaches_trans hc hc'
        exact NotationError.placed_charSpan (Cursor.reaches_trans htext c'.reaches_toEnd)
          ((Fault.openedBefore_self rfl htext).mono c'.reaches_toEnd)
    · exact c'.reaches_refl

theorem moves_skipTrivia (hc : text.Reaches c) : Moves text c skipTrivia :=
  (moves_triviaPiece hc).collect.bind fun _ => moves_pure ()

theorem lands_identifier : Lands text identifier c fun found c' =>
    c.Reaches c' ∧ (found.isSome = true → c.offset < c'.offset) := by
  unfold Lands identifier
  split_ifs with hstart
  · refine ⟨⟨_, rfl⟩, fun _ => ?_⟩
    obtain ⟨a, hpeek, ha⟩ := (Option.any_eq_true _ _).mp hstart
    obtain ⟨rest, hrest⟩ := Cursor.peek_eq_some hpeek
    have hpos : 0 < (c.rest.takeWhile isNamePart).length := by
      rw [hrest, List.takeWhile_cons_of_pos (isNamePart_of_isNameStart ha)]
      exact Nat.succ_pos _
    exact Cursor.lt_offset_skip hpos (List.takeWhile_prefix _).length_le
  · exact ⟨c.reaches_refl, nofun⟩

theorem lands_checkReserved {start stop : Cursor} (hstart : text.Reaches start)
    (hstop : start.Reaches stop) (word : String) :
    Lands text (checkReserved word start stop) c fun _ c' => c' = c := by
  unfold Lands checkReserved
  split_ifs
  · exact ⟨start, stop, rfl, hstart, hstop, Fault.openedBefore_of_none rfl⟩
  · rfl

theorem moves_hexEscape {backslash : Cursor} (hb : text.Reaches backslash)
    (hbc : backslash.Reaches c) (count : Nat) : Moves text c (hexEscape backslash count) := by
  intro c' hc'
  unfold Lands hexEscape
  dsimp only
  cases if (c'.rest.take count).length = count then hexChar? (c'.rest.take count) else none with
  | some decoded => exact ⟨count, rfl⟩
  | none =>
    exact ⟨backslash, c', rfl, hb, Cursor.reaches_trans hbc hc', Fault.openedBefore_of_none rfl⟩

theorem moves_escape (hc : text.Reaches c) {unterminated : Fault}
    (hf : unterminated.OpenedBefore text c) : Moves text c (escape unterminated) := by
  intro c' hc'
  have htext := Cursor.reaches_trans hc hc'
  have hnext := Cursor.reaches_trans htext c'.reaches_next
  refine lands_get (lands_advance (lands_peek ?_))
  cases c'.next.peek with
  | none =>
    exact lands_failHere hnext ((hf.mono hc').mono c'.reaches_next)
  | some a =>
    have hbehind : c'.Reaches c'.next.next :=
      Cursor.reaches_trans c'.reaches_next c'.next.reaches_next
    have hhex (count : Nat) {c₁ : Cursor} (h₁ : c'.Reaches c₁) :
        Lands text (hexEscape c' count) c₁ fun _ c₂ => c'.Reaches c₂ :=
      (moves_hexEscape htext c'.reaches_refl count c₁ h₁).imp fun _ _ => Cursor.reaches_trans h₁
    refine lands_advance ?_
    split
    case h_7 => exact lands_peek (lands_pure hbehind)
    case h_8 => exact hhex 2 hbehind
    case h_9 =>
      refine lands_eat (fun _ => lands_get ?_) (hhex 4 hbehind)
      have hbrace := Cursor.reaches_trans hbehind c'.next.next.reaches_next
      refine (hhex _ hbrace).bind fun decoded c₁ h₁ => lands_advance ?_
      exact lands_pure (Cursor.reaches_trans h₁ c₁.reaches_next)
    all_goals exact lands_pure hbehind

theorem moves_skipContinuations : Moves text c skipContinuations := by
  have hpiece : Moves text c lineContinuation := by
    intro c' _
    unfold Lands lineContinuation
    split_ifs
    · exact ⟨2, rfl⟩
    · exact c'.reaches_refl
  exact hpiece.collect.bind fun _ => moves_pure ()

theorem moves_innerChar (hc : text.Reaches c) {inEscape elsewhere : Fault}
    (hi : inEscape.OpenedBefore text c) (he : elsewhere.OpenedBefore text c) (closing : Char) :
    Moves text c (innerChar closing inEscape elsewhere) := by
  intro c' hc'
  refine (moves_skipContinuations c' hc').bind fun _ c₁ h₁ => lands_peek ?_
  have hc₁ := Cursor.reaches_trans hc' h₁
  cases c₁.peek with
  | none => exact lands_failHere (Cursor.reaches_trans hc hc₁) (he.mono hc₁)
  | some a =>
    dsimp only
    split_ifs
    · exact lands_pure h₁
    · refine (moves_escape hc hi c₁ hc₁).bind fun decoded c₂ h₂ => ?_
      exact lands_pure (Cursor.reaches_trans h₁ h₂)
    · exact lands_failHere (Cursor.reaches_trans hc hc₁) (he.mono hc₁)
    · exact lands_advance (lands_pure (Cursor.reaches_trans h₁ c₁.reaches_next))

/-- Tokens that are opened by a character end behind it. -/
theorem lands_stringLiteral (hc : text.Reaches c) :
    Lands text stringLiteral c fun _ c' => c.next.Reaches c' := by
  have hinside := Cursor.reaches_trans hc c.reaches_next
  have hopened {fault : Fault} (h : fault.opened? = some c.position) :
      fault.OpenedBefore text c.next :=
    (Fault.openedBefore_self h hc).mono c.reaches_next
  refine lands_get (lands_peek (lands_advance ?_))
  exact (moves_innerChar hinside (hopened rfl) (hopened rfl) _).collect.bind
    (fun chars => moves_advance.bind fun _ => moves_pure _) c.next c.next.reaches_refl

theorem moves_classPart (hc : text.Reaches c) {opened : Cursor} (ho : text.Reaches opened)
    (hoc : opened.Reaches c) : Moves text c (classPart opened.position) := by
  have hopened {fault : Fault} (h : fault.opened? = some opened.position) :
      fault.OpenedBefore text c :=
    (Fault.openedBefore_self h ho).mono hoc
  have hchar : Moves text c (classChar opened.position) :=
    moves_innerChar hc (hopened rfl) (hopened rfl) ']'
  intro c' hc'
  refine (hchar c' hc').bind fun first c₁ h₁ => ?_
  cases first with
  | none => exact lands_pure h₁
  | some first =>
    refine lands_get ?_
    split_ifs
    · exact lands_pure h₁
    · have h₂ := Cursor.reaches_trans h₁ c₁.reaches_next
      refine lands_advance ?_
      refine (hchar c₁.next (Cursor.reaches_trans hc' h₂)).bind fun last c₃ h₃ => ?_
      have h₃' := Cursor.reaches_trans h₂ h₃
      cases last with
      | none => exact lands_pure h₃'
      | some last =>
        dsimp only
        split_ifs
        · exact lands_failHere (Cursor.reaches_trans hc (Cursor.reaches_trans hc' h₃'))
            (Fault.openedBefore_of_none rfl)
        · exact lands_pure h₃'

theorem lands_charClass (hc : text.Reaches c) :
    Lands text charClass c fun _ c' => c.next.Reaches c' := by
  have hinside := Cursor.reaches_trans hc c.reaches_next
  have hparts : Moves text c.next (classPart c.position) :=
    moves_classPart hinside hc c.reaches_next
  refine lands_get (lands_advance ?_)
  exact (moves_eat '^').bind (fun inverted => hparts.collect.bind fun parts =>
    moves_advance.bind fun _ => (moves_eat 'i').bind fun ignoreCase => moves_pure _)
    c.next c.next.reaches_refl

theorem lands_codeBlock (hc : text.Reaches c) :
    Lands text codeBlock c fun _ c' => c.next.Reaches c' := by
  unfold Lands codeBlock
  dsimp only
  cases codeLength 0 c.next.rest with
  | some n => exact ⟨n + 1, rfl⟩
  | none =>
    exact NotationError.placed_charSpan (Cursor.reaches_trans hc c.reaches_toEnd)
      ((Fault.openedBefore_self rfl hc).mono c.reaches_toEnd)

/-- What comes behind trivia is read from behind them, and otherwise the cursor comes back. -/
theorem lands_further {ready : Reader Bool} {item : Reader α} {P : α → Cursor → Prop}
    (hc : text.Reaches c) (hr : Moves text c ready)
    (hi : ∀ c', c.Reaches c' → Lands text item c' P) :
    Lands text (further ready item) c fun found c' =>
      (∀ a ∈ found, P a c') ∧ (found = none → c' = c) := by
  refine lands_get ((moves_skipTrivia hc c c.reaches_refl).bind fun _ c₁ h₁ => ?_)
  refine (hr c₁ h₁).bind fun isReady c₂ h₂ => ?_
  cases isReady with
  | true =>
    refine (hi c₂ (Cursor.reaches_trans h₁ h₂)).bind fun a c₃ ha => lands_pure ?_
    exact ⟨fun b hb => by cases hb; exact ha, nofun⟩
  | false => exact lands_set (lands_pure ⟨nofun, fun _ => rfl⟩)

end Tokens

end Notation
end Peg
