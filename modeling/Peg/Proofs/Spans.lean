import Peg.Proofs.Placement
import Peg.Proofs.Subterms

/-! The spans of what is read. The span of every initializer, rule and expression is a part of the
text that is not empty, with ends at characters; parts stand inside what they are parts of, and
those of a row one behind the other. The span of an error is a part of the text, too, and shows
nothing in front of what it says has been opened. -/
namespace Peg

/-- The position is that of a character of the text, or of its end: what is in front of it has as
many bytes, and a scan of it and the index of lines find the same line and column. -/
structure Position.Marks (text : String) (p : Position) : Prop where
  boundary : ∃ front rest, text.toList = front ++ rest ∧ p.offset = Cursor.byteCount front ∧
    p = Position.start.advanceBy front
  indexed : (LineIndex.ofText text).position p.offset = p
  inside : p.offset ≤ text.utf8ByteSize

namespace Span

structure Marks (text : String) (s : Span) : Prop where
  start : s.start.Marks text
  stop : s.stop.Marks text
  nonempty : s.start.offset < s.stop.offset

structure Within (inner outer : Span) : Prop where
  start : outer.start.offset ≤ inner.start.offset
  stop : inner.stop.offset ≤ outer.stop.offset

/-- The span ends where another one starts, or in front of that. -/
def Before (first second : Span) : Prop := first.stop.offset ≤ second.start.offset

end Span

namespace Expr

def children : Expr → List Expr
  | sequence _ es | choice _ es => es
  | wrapped _ _ body => [body]
  | _ => []

/-- The span of the expression is a part of the text, and its children stand in it one behind the
other. -/
structure LocatedRoot (text : String) (e : Expr) : Prop where
  marks : e.span.Marks text
  inside : ∀ child ∈ e.children, child.span.Within e.span
  ordered : e.children.Pairwise fun first second => first.span.Before second.span

def Located (text : String) (e : Expr) : Prop := ∀ part ∈ e.subterms, part.LocatedRoot text

end Expr

/-- The span of the rule is a part of the text, and its expression is located in it. -/
structure Rule.Located (text : String) (rule : Rule) : Prop where
  marks : rule.span.Marks text
  inside : rule.expr.span.Within rule.span
  expr : rule.expr.Located text

/-- The initializer and the rules of the grammar are located in it, one behind the other. -/
structure Grammar.Located (text : String) (g : Grammar) : Prop where
  marks : g.span.Marks text
  initializer : ∀ i ∈ g.initializer, i.span.Marks text ∧ i.span.Within g.span
  rules : ∀ rule ∈ g.rules, rule.Located text ∧ rule.span.Within g.span
  first : ∀ i ∈ g.initializer, ∀ rule ∈ g.rules, i.span.Before rule.span
  ordered : g.rules.Pairwise fun first second => first.span.Before second.span

/-- The span of the error is a part of the text, maybe an empty one, that does not start in front of
what the error says has been opened. -/
structure NotationError.Located (text : String) (e : NotationError) : Prop where
  start : e.span.start.Marks text
  stop : e.span.stop.Marks text
  ordered : e.span.start.offset ≤ e.span.stop.offset
  opened : ∀ opened ∈ e.fault.opened?, opened.Marks text ∧ opened.offset ≤ e.span.start.offset

variable {text : String} {c c' lo hi start stop : Cursor}

theorem Cursor.marks_of_reaches (h : (ofText text).Reaches c) : c.position.Marks text := by
  obtain ⟨front, rest, htext, rfl⟩ := exists_of_ofText_reaches h
  have hoffset : (Position.start.advanceBy front).offset = byteCount front :=
    (Position.start.offset_advanceBy front).trans (Nat.zero_add _)
  refine ⟨⟨front, rest, htext, hoffset, rfl⟩, ?_, offset_le_of_ofText_reaches h⟩
  calc
    (LineIndex.ofText text).position (Position.start.advanceBy front).offset
    _ = (LineIndex.ofText text).position (byteCount front) := by rw [hoffset]
    _ = Position.start.advanceBy front := LineIndex.position_ofText htext

theorem NotationError.Placed.located {e : NotationError} (h : e.Placed (.ofText text)) :
    e.Located text := by
  obtain ⟨start, stop, he, hstart, hstop, hopened⟩ := h
  unfold Cursor.spanTo at he
  refine ⟨?_, ?_, ?_, fun position hp => ?_⟩
  · rw [he]
    exact Cursor.marks_of_reaches hstart
  · rw [he]
    exact Cursor.marks_of_reaches (Cursor.reaches_trans hstart hstop)
  · rw [he]
    exact Cursor.offset_le_of_reaches hstop
  · obtain ⟨opened, hopened, hreach, rfl⟩ := hopened position hp
    rw [he]
    exact ⟨Cursor.marks_of_reaches hopened, Cursor.offset_le_of_reaches hreach⟩

namespace Span

/-- The span goes from one place to another between `lo` and `hi`, and is not empty. -/
def Between (lo hi : Cursor) (s : Span) : Prop :=
  ∃ start stop : Cursor, s = start.spanTo stop ∧ lo.Reaches start ∧ start.Reaches stop ∧
    stop.Reaches hi ∧ start.offset < stop.offset

variable {s : Span}

theorem between_spanTo (h : start.Reaches stop) (hlt : start.offset < stop.offset) :
    (start.spanTo stop).Between start stop :=
  ⟨start, stop, rfl, start.reaches_refl, h, stop.reaches_refl, hlt⟩

namespace Between

theorem mono (h : s.Between lo hi) (hlo : c.Reaches lo) (hhi : hi.Reaches c') :
    s.Between c c' := by
  obtain ⟨start, stop, he, hstart, hs, hstop, hlt⟩ := h
  exact ⟨start, stop, he, Cursor.reaches_trans hlo hstart, hs, Cursor.reaches_trans hstop hhi, hlt⟩

theorem reaches (h : s.Between lo hi) : lo.Reaches hi := by
  obtain ⟨start, stop, -, hstart, hs, hstop, -⟩ := h
  exact Cursor.reaches_trans hstart (Cursor.reaches_trans hs hstop)

theorem start_le (h : s.Between lo hi) : lo.offset ≤ s.start.offset := by
  obtain ⟨start, stop, rfl, hstart, -⟩ := h
  exact Cursor.offset_le_of_reaches hstart

theorem le_stop (h : s.Between lo hi) : s.stop.offset ≤ hi.offset := by
  obtain ⟨start, stop, rfl, -, -, hstop, -⟩ := h
  exact Cursor.offset_le_of_reaches hstop

theorem nonempty (h : s.Between lo hi) : s.start.offset < s.stop.offset := by
  obtain ⟨start, stop, rfl, -, -, -, hlt⟩ := h
  exact hlt

theorem marks (h : s.Between lo hi) (hlo : (Cursor.ofText text).Reaches lo) : s.Marks text := by
  have hnonempty := h.nonempty
  obtain ⟨start, stop, rfl, hstart, hs, -, -⟩ := h
  have htext := Cursor.reaches_trans hlo hstart
  exact ⟨Cursor.marks_of_reaches htext, Cursor.marks_of_reaches (Cursor.reaches_trans htext hs),
    hnonempty⟩

theorem within (h : s.Between start stop) : s.Within (start.spanTo stop) :=
  ⟨h.start_le, h.le_stop⟩

/-- What is between two places leaves room for the span between these. -/
theorem around (h : s.Between start stop) : (start.spanTo stop).Between start stop := by
  have hstart := h.start_le
  have hnonempty := h.nonempty
  have hstop := h.le_stop
  exact between_spanTo h.reaches (by omega)

theorem before {s' : Span} (h : s.Between lo c) (h' : s'.Between c hi) : s.Before s' :=
  Nat.le_trans h.le_stop h'.start_le

end Between

end Span

namespace Notation.Successive

variable {α : Type} {Item : Cursor → α → Cursor → Prop} {items : List α}

/-- Items in a row stand between its ends. -/
theorem between (span : α → Span) (h : Successive Item lo items hi)
    (hs : ∀ c a c', Item c a c' → (span a).Between c c') :
    lo.Reaches hi ∧ ∀ a ∈ items, (span a).Between lo hi := by
  induction h with
  | nil => exact ⟨Cursor.reaches_refl _, List.forall_mem_nil _⟩
  | cons first _ ih =>
    obtain ⟨hreach, hothers⟩ := ih
    have hfirst := hs _ _ _ first
    exact ⟨Cursor.reaches_trans hfirst.reaches hreach, List.forall_mem_cons.mpr
      ⟨hfirst.mono (Cursor.reaches_refl _) hreach,
        fun a ha => (hothers a ha).mono hfirst.reaches (Cursor.reaches_refl _)⟩⟩

/-- Each item in a row stands in front of those behind it. -/
theorem pairwise (span : α → Span) (h : Successive Item lo items hi)
    (hs : ∀ c a c', Item c a c' → (span a).Between c c') :
    items.Pairwise fun first second => (span first).Before (span second) := by
  induction h with
  | nil => exact .nil
  | cons first others ih =>
    exact .cons (fun a ha => (hs _ _ _ first).before ((others.between span hs).2 a ha)) ih

theorem forall_mem {P : α → Prop} (h : Successive Item lo items hi)
    (hp : ∀ c a c', Item c a c' → P a) : ∀ a ∈ items, P a := by
  induction h with
  | nil => exact List.forall_mem_nil P
  | cons first _ ih => exact List.forall_mem_cons.mpr ⟨hp _ _ _ first, ih⟩

end Notation.Successive

namespace Expr

structure StandsIn (text : String) (lo : Cursor) (e : Expr) (hi : Cursor) : Prop where
  between : e.span.Between lo hi
  located : e.Located text

theorem StandsIn.mono {e : Expr} (h : e.StandsIn text lo hi) (hlo : c.Reaches lo)
    (hhi : hi.Reaches c') : e.StandsIn text c c' :=
  ⟨h.between.mono hlo hhi, h.located⟩

theorem standsIn_leaf {e : Expr} (hs : e.subterms = [e]) (hc : e.children = [])
    (hlo : (Cursor.ofText text).Reaches lo) (h : e.span.Between lo hi) : e.StandsIn text lo hi := by
  refine ⟨h, ?_⟩
  rw [Located, hs, List.forall_mem_singleton]
  refine ⟨h.marks hlo, ?_, ?_⟩
  · rw [hc]
    exact List.forall_mem_nil _
  · rw [hc]
    exact .nil

theorem standsIn_wrapped {body : Expr} (wrapper : Wrapper)
    (hlo : (Cursor.ofText text).Reaches lo) (h : body.StandsIn text lo hi) :
    (wrapped (lo.spanTo hi) wrapper body).StandsIn text lo hi := by
  refine ⟨h.between.around, ?_⟩
  rw [Located, subterms, List.forall_mem_cons]
  exact ⟨⟨h.between.around.marks hlo, List.forall_mem_singleton.mpr h.between.within,
    List.pairwise_singleton _ _⟩, h.located⟩

/-- Expressions one behind the other may be elements or alternatives of one that goes from the first
place to the last one. -/
theorem standsIn_row {row : Expr} {es : List Expr} (hlo : (Cursor.ofText text).Reaches lo)
    (hne : es ≠ []) (h : Notation.Successive (StandsIn text) lo es c) (hc : c.Reaches hi)
    (hspan : row.span = lo.spanTo hi) (hes : row.children = es)
    (hs : row.subterms = row :: subtermsOfAll es) : row.StandsIn text lo hi := by
  have hbetween : ∀ e ∈ es, e.span.Between lo hi := fun e he =>
    ((h.between span fun _ _ _ => StandsIn.between).2 e he).mono lo.reaches_refl hc
  obtain ⟨first, others, rfl⟩ := List.exists_cons_of_ne_nil hne
  have haround := (hbetween first List.mem_cons_self).around
  have hroot : row.LocatedRoot text := by
    refine ⟨hspan ▸ haround.marks hlo, ?_, ?_⟩
    · rw [hes, hspan]
      exact fun e he => (hbetween e he).within
    · rw [hes]
      exact h.pairwise span fun _ _ _ => StandsIn.between
  refine ⟨hspan ▸ haround, ?_⟩
  rw [Located, hs, List.forall_mem_cons, forall_mem_subtermsOfAll]
  exact ⟨hroot, h.forall_mem fun _ _ _ => StandsIn.located⟩

end Expr

namespace Notation

/-- From every place of the text, what the reader gives is located between there and where the
cursor comes to. -/
def Locates (text : String) (r : Reader Expr) : Prop :=
  ∀ c, (Cursor.ofText text).Reaches c → Lands (.ofText text) r c fun e c' => e.StandsIn text c c'

/-- What comes behind trivia is located behind the place in front of them. -/
theorem Locates.further {ready : Reader Bool} {item : Reader Expr} (h : Locates text item)
    (hr : ∀ c, (Cursor.ofText text).Reaches c → Moves (.ofText text) c ready)
    (hc : (Cursor.ofText text).Reaches c) :
    Lands (.ofText text) (further ready item) c fun found c' =>
      c.Reaches c' ∧ ∀ e ∈ found, e.StandsIn text c c' := by
  refine (lands_further (P := fun e c' => e.StandsIn text c c') hc (hr c hc)
    fun c' hc' => ?_).imp fun found c' ⟨hfound, hnone⟩ => ⟨?_, hfound⟩
  · refine (h c' (Cursor.reaches_trans hc hc')).imp fun e c'' he => ?_
    exact he.mono hc' c''.reaches_refl
  · cases found with
    | none => rw [hnone rfl]; exact c.reaches_refl
    | some e => exact (hfound e rfl).between.reaches

section Levels

variable {nested : Reader Expr} (hnested : Locates text nested)

include hnested

theorem primary_locates : Locates text (primary nested) := by
  intro c hc
  refine lands_get ?_
  cases hpeek : c.peek with
  | none => exact lands_failHere hc (Fault.openedBefore_of_none rfl)
  | some a =>
    have hlt := Cursor.lt_offset_next hpeek
    have htoken {c' : Cursor} (h : c.next.Reaches c') : (c.spanTo c').Between c c' :=
      Span.between_spanTo (Cursor.reaches_trans c.reaches_next h)
        (Nat.lt_of_lt_of_le hlt (Cursor.offset_le_of_reaches h))
    dsimp only
    split_ifs
    · refine (lands_stringLiteral hc).bind fun text c₁ h₁ => ?_
      refine (moves_eat 'i' c₁ h₁).bind fun ignoreCase c₂ h₂ => lands_spanFrom (lands_pure ?_)
      exact Expr.standsIn_leaf rfl rfl hc (htoken (Cursor.reaches_trans h₁ h₂))
    · refine (lands_charClass hc).bind fun members c₁ h₁ => lands_spanFrom (lands_pure ?_)
      exact Expr.standsIn_leaf rfl rfl hc (htoken h₁)
    · refine lands_advance (lands_spanFrom (lands_pure ?_))
      exact Expr.standsIn_leaf rfl rfl hc (htoken c.next.reaches_refl)
    · refine lands_advance ?_
      have hinside := Cursor.reaches_trans hc c.reaches_next
      refine (moves_skipTrivia hinside c.next c.next.reaches_refl).bind fun _ c₁ h₁ => ?_
      have hc₁ := Cursor.reaches_trans hinside h₁
      refine (hnested c₁ hc₁).bind fun body c₂ hbody => ?_
      have hc₂ := Cursor.reaches_trans hc₁ hbody.between.reaches
      refine (moves_skipTrivia hc₂ c₂ c₂.reaches_refl).bind fun _ c₃ h₃ => ?_
      have hfront := Cursor.reaches_trans c.reaches_next h₁
      refine lands_eat (fun _ => lands_spanFrom (lands_pure ?_)) ?_
      · exact Expr.standsIn_wrapped .group hc
          (hbody.mono hfront (Cursor.reaches_trans h₃ c₃.reaches_next))
      · refine lands_failHere (Cursor.reaches_trans hc₂ h₃)
          ((Fault.openedBefore_self rfl hc).mono ?_)
        exact Cursor.reaches_trans hfront (Cursor.reaches_trans hbody.between.reaches h₃)
    · refine lands_identifier.bind fun found c₁ ⟨h₁, hname⟩ => ?_
      cases found with
      | none => exact lands_failHere (Cursor.reaches_trans hc h₁) (Fault.openedBefore_of_none rfl)
      | some name =>
        refine lands_get ((lands_checkReserved hc h₁ name).bind fun _ c₂ h₂ => ?_)
        rw [h₂]
        exact lands_spanFrom (lands_pure
          (Expr.standsIn_leaf rfl rfl hc (Span.between_spanTo h₁ (hname rfl))))

theorem suffixed_locates : Locates text (suffixed nested) := by
  intro c hc
  refine lands_get ((primary_locates hnested c hc).bind fun body c₁ hbody => lands_get ?_)
  have hc₁ := Cursor.reaches_trans hc hbody.between.reaches
  refine (moves_skipTrivia hc₁ c₁ c₁.reaches_refl).bind fun _ c₂ h₂ => lands_peek ?_
  cases c₂.peek.bind suffixOperator? with
  | none => exact lands_set (lands_pure hbody)
  | some wrapper =>
    refine lands_advance (lands_spanFrom (lands_pure ?_))
    exact Expr.standsIn_wrapped wrapper hc
      (hbody.mono c.reaches_refl (Cursor.reaches_trans h₂ c₂.reaches_next))

theorem prefixed_locates : Locates text (prefixed nested) := by
  intro c hc
  refine lands_get ?_
  cases hoperator : c.peek.bind fun a => (prefixOperator? a).map fun wrapper => (a, wrapper) with
  | none => exact suffixed_locates hnested c hc
  | some found =>
    obtain ⟨a, hpeek, -⟩ := Option.bind_eq_some_iff.mp hoperator
    have hlt := Cursor.lt_offset_next hpeek
    have hbehind := Cursor.reaches_trans hc c.reaches_next
    refine lands_advance ?_
    refine (moves_skipTrivia hbehind c.next c.next.reaches_refl).bind fun _ c₁ h₁ => lands_peek ?_
    have hc₁ := Cursor.reaches_trans hbehind h₁
    have hfront := Cursor.reaches_trans c.reaches_next h₁
    split_ifs
    · refine (lands_codeBlock hc₁).bind fun code c₂ h₂ => lands_spanFrom (lands_pure ?_)
      have hstop := Cursor.reaches_trans h₁ (Cursor.reaches_trans c₁.reaches_next h₂)
      refine Expr.standsIn_leaf rfl rfl hc
        (Span.between_spanTo (Cursor.reaches_trans c.reaches_next hstop) ?_)
      exact Nat.lt_of_lt_of_le hlt (Cursor.offset_le_of_reaches hstop)
    · refine (suffixed_locates hnested c₁ hc₁).bind fun body c₂ hbody => ?_
      refine lands_spanFrom (lands_pure ?_)
      exact Expr.standsIn_wrapped _ hc (hbody.mono hfront c₂.reaches_refl)
    · exact lands_failHere hc₁ (Fault.openedBefore_of_none rfl)

omit hnested in
theorem moves_label (hc : (Cursor.ofText text).Reaches c) : Moves (.ofText text) c label := by
  intro c' hc'
  have htext := Cursor.reaches_trans hc hc'
  refine lands_get (lands_identifier.bind fun found c₁ ⟨h₁, _⟩ => ?_)
  cases found with
  | none => exact lands_pure h₁
  | some name =>
    refine lands_get ?_
    refine (moves_skipTrivia (Cursor.reaches_trans htext h₁) c₁ c₁.reaches_refl).bind
      fun _ c₂ h₂ => ?_
    refine lands_eat (fun _ => ?_) (lands_set (lands_pure c'.reaches_refl))
    refine (lands_checkReserved htext h₁ name).bind fun _ c₃ h₃ => lands_pure ?_
    rw [h₃]
    exact Cursor.reaches_trans h₁ (Cursor.reaches_trans h₂ c₂.reaches_next)

theorem labeled_locates : Locates text (labeled nested) := by
  intro c hc
  refine lands_get ((moves_label hc c c.reaches_refl).bind fun found c₁ h₁ => ?_)
  have hc₁ := Cursor.reaches_trans hc h₁
  cases found with
  | none =>
    refine (prefixed_locates hnested c₁ hc₁).imp fun e c₂ he => ?_
    exact he.mono h₁ c₂.reaches_refl
  | some name =>
    refine (moves_skipTrivia hc₁ c₁ c₁.reaches_refl).bind fun _ c₂ h₂ => ?_
    refine (prefixed_locates hnested c₂ (Cursor.reaches_trans hc₁ h₂)).bind fun body c₃ hbody => ?_
    refine lands_spanFrom (lands_pure ?_)
    exact Expr.standsIn_wrapped _ hc (hbody.mono (Cursor.reaches_trans h₁ h₂) c₃.reaches_refl)

omit hnested in
theorem moves_atElement : Moves (.ofText text) c atElement := by
  intro c' _
  refine lands_peek ?_
  cases c'.peek with
  | none => exact lands_pure c'.reaches_refl
  | some a =>
    dsimp only
    split_ifs
    · refine (lands_lookingAt _).bind fun found c₁ h₁ => lands_pure ?_
      rw [h₁]
      exact c'.reaches_refl
    · exact lands_pure c'.reaches_refl

omit hnested in
/-- What stands in a row is located if each part is, whether one or several are put together. -/
theorem row_locates {one item : Reader Expr} {ready : Reader Bool} (node : Span → List Expr → Expr)
    (hspan : ∀ span es, (node span es).span = span)
    (hchildren : ∀ span es, (node span es).children = es)
    (hsubterms : ∀ span es, (node span es).subterms = node span es :: Expr.subtermsOfAll es)
    (hone : Locates text one) (hitem : Locates text item)
    (hready : ∀ c, (Cursor.ofText text).Reaches c → Moves (.ofText text) c ready) :
    Locates text (do
      let start ← get
      let first ← one
      let others ← collect (further ready item)
      if others.isEmpty then return first
      else return node (← spanFrom start) (first :: others)) := by
  intro c hc
  refine lands_get ((hone c hc).bind fun first c₁ hfirst => ?_)
  refine (lands_collect (Expr.StandsIn text) fun c' hc' => ?_).bind
    fun others c₃ ⟨h₃, c₂, hothers, h₂⟩ => ?_
  · exact hitem.further hready
      (Cursor.reaches_trans hc (Cursor.reaches_trans hfirst.between.reaches hc'))
  · cases others with
    | nil => exact lands_pure (hfirst.mono c.reaches_refl h₃)
    | cons second others =>
      refine lands_spanFrom (lands_pure ?_)
      exact Expr.standsIn_row hc (List.cons_ne_nil _ _) (.cons hfirst hothers) h₂ (hspan _ _)
        (hchildren _ _) (hsubterms _ _)

theorem sequence_locates : Locates text (sequence nested) :=
  row_locates .sequence (fun _ _ => rfl) (fun _ _ => rfl) (fun _ _ => by rw [Expr.subterms])
    (labeled_locates hnested) (labeled_locates hnested) fun _ _ => moves_atElement

theorem action_locates : Locates text (action nested) := by
  intro c hc
  refine lands_get ((sequence_locates hnested c hc).bind fun body c₁ hbody => ?_)
  have hc₁ := Cursor.reaches_trans hc hbody.between.reaches
  refine (lands_further (P := fun _ c' => c₁.Reaches c') hc₁
    (moves_peek.bind fun _ => moves_pure _) fun c' hc' => ?_).bind fun found c₂ ⟨hsome, hnone⟩ => ?_
  · refine (lands_codeBlock (Cursor.reaches_trans hc₁ hc')).imp fun code c'' h => ?_
    exact Cursor.reaches_trans hc' (Cursor.reaches_trans c'.reaches_next h)
  · cases found with
    | none => rw [hnone rfl]; exact lands_pure hbody
    | some code =>
      refine lands_spanFrom (lands_pure ?_)
      exact Expr.standsIn_wrapped _ hc (hbody.mono c.reaches_refl (hsome code rfl))

theorem choice_locates : Locates text (choice nested) := by
  intro c hc
  have hbehind : Locates text (do skipTrivia; action nested) := by
    intro c' hc'
    refine (moves_skipTrivia hc' c' c'.reaches_refl).bind fun _ c₁ h₁ => ?_
    refine (action_locates hnested c₁ (Cursor.reaches_trans hc' h₁)).imp fun e c₂ he => ?_
    exact he.mono h₁ c₂.reaches_refl
  exact row_locates .choice (fun _ _ => rfl) (fun _ _ => rfl) (fun _ _ => by rw [Expr.subterms])
    (action_locates hnested) hbehind (fun _ _ => moves_eat '/') c hc

end Levels

theorem expression_locates (depth : Nat) : Locates text (expression depth) := by
  induction depth with
  | zero => exact fun c hc => lands_failHere hc (Fault.openedBefore_of_none rfl)
  | succ depth ih => exact choice_locates ih

structure RuleIn (text : String) (lo : Cursor) (rule : Rule) (hi : Cursor) : Prop where
  between : rule.span.Between lo hi
  located : rule.Located text

theorem ruleIn_spanTo (hlo : (Cursor.ofText text).Reaches lo) {expr : Expr} (name : String)
    (h : expr.StandsIn text lo hi) : RuleIn text lo ⟨name, expr, lo.spanTo hi⟩ hi :=
  ⟨h.between.around, h.between.around.marks hlo, h.between.within, h.located⟩

theorem lands_displayName (hc : (Cursor.ofText text).Reaches c) :
    Lands (.ofText text) displayName c fun found c' =>
      c.Reaches c' ∧ ∀ display ∈ found, display.2 = c := by
  refine lands_get ?_
  split_ifs
  · refine (lands_stringLiteral hc).bind fun name c₁ h₁ => ?_
    have h₁' := Cursor.reaches_trans c.reaches_next h₁
    refine (moves_skipTrivia (Cursor.reaches_trans hc h₁') c₁ c₁.reaches_refl).bind
      fun _ c₂ h₂ => lands_pure ⟨Cursor.reaches_trans h₁' h₂, fun display hd => ?_⟩
    cases hd
    rfl
  · exact lands_pure ⟨c.reaches_refl, nofun⟩

theorem lands_rule (hc : (Cursor.ofText text).Reaches c) :
    Lands (.ofText text) rule c (RuleIn text c) := by
  refine lands_get (lands_identifier.bind fun found c₁ ⟨h₁, _⟩ => ?_)
  have hc₁ := Cursor.reaches_trans hc h₁
  cases found with
  | none => exact lands_peek (lands_failHere hc₁ (Fault.openedBefore_of_none rfl))
  | some name =>
    refine lands_get ((lands_checkReserved hc h₁ name).bind fun _ c₁' h => ?_)
    rw [h]
    refine (moves_skipTrivia hc₁ c₁ c₁.reaches_refl).bind fun _ c₂ h₂ => ?_
    have hc₂ := Cursor.reaches_trans hc₁ h₂
    refine (lands_displayName hc₂).bind fun display c₃ ⟨h₃, hdisplay⟩ => ?_
    have hc₃ := Cursor.reaches_trans hc₂ h₃
    refine lands_eat (fun _ => ?_) (lands_failHere hc₃ (Fault.openedBefore_of_none rfl))
    have hc₄ := Cursor.reaches_trans hc₃ c₃.reaches_next
    refine (moves_skipTrivia hc₄ c₃.next c₃.next.reaches_refl).bind fun _ c₅ h₅ => lands_get ?_
    refine (expression_locates _ c₅ (Cursor.reaches_trans hc₄ h₅)).bind fun body c₆ hbody => ?_
    have hequals : c₃.Reaches c₅ := Cursor.reaches_trans c₃.reaches_next h₅
    have hname : c.Reaches c₂ := Cursor.reaches_trans h₁ h₂
    have hbody₂ := hbody.mono (Cursor.reaches_trans h₃ hequals) c₆.reaches_refl
    have hend {expr : Expr} (he : expr.StandsIn text c c₆) : Lands (.ofText text)
        (do
          let span ← spanFrom c
          let _ ← further (eat ';') (pure ())
          return (⟨name, expr, span⟩ : Rule)) c₆ (RuleIn text c) := by
      have hrule := ruleIn_spanTo hc name he
      have hc₆ := Cursor.reaches_trans hc he.between.reaches
      refine lands_spanFrom ?_
      refine (lands_further (P := fun _ c' => c₆.Reaches c') hc₆ (moves_eat ';')
        fun c' hc' => lands_pure hc').bind fun found c₇ ⟨hsome, hnone⟩ => lands_pure ?_
      refine ⟨hrule.between.mono c.reaches_refl ?_, hrule.located⟩
      cases found with
      | none => rw [hnone rfl]; exact c₆.reaches_refl
      | some _ => exact hsome () rfl
    cases display with
    | none => exact hend (hbody₂.mono hname c₆.reaches_refl)
    | some display =>
      obtain ⟨text', named⟩ := display
      have hnamed : named = c₂ := hdisplay _ rfl
      subst hnamed
      refine hend (Expr.StandsIn.mono ?_ hname c₆.reaches_refl)
      exact Expr.standsIn_wrapped (.named text') hc₂ hbody₂

theorem lands_initializer (hc : (Cursor.ofText text).Reaches c) :
    Lands (.ofText text) initializer c fun found c' =>
      c.Reaches c' ∧ ∀ i ∈ found, i.span.Between c c' := by
  refine lands_get ?_
  split_ifs with hopen
  · have hlt := Cursor.lt_offset_next hopen
    refine (lands_codeBlock hc).bind fun code c₁ h₁ => lands_spanFrom ?_
    have h₁' := Cursor.reaches_trans c.reaches_next h₁
    refine (moves_skipTrivia (Cursor.reaches_trans hc h₁') c₁ c₁.reaches_refl).bind
      fun _ c₂ h₂ => ?_
    refine (moves_eat ';' c₂ h₂).bind fun _ c₃ h₃ => lands_pure ?_
    have hbehind := Cursor.reaches_trans h₂ h₃
    refine ⟨Cursor.reaches_trans h₁' hbehind, fun i hi => ?_⟩
    cases hi
    exact (Span.between_spanTo h₁'
      (Nat.lt_of_lt_of_le hlt (Cursor.offset_le_of_reaches h₁))).mono c.reaches_refl hbehind
  · exact lands_pure ⟨c.reaches_refl, nofun⟩

theorem lands_grammar (hc : (Cursor.ofText text).Reaches c) :
    Lands (.ofText text) grammar c fun g _ => g.Located text := by
  refine lands_get ((moves_skipTrivia hc c c.reaches_refl).bind fun _ c₁ h₁ => ?_)
  have hc₁ := Cursor.reaches_trans hc h₁
  refine (lands_initializer hc₁).bind fun found c₂ ⟨h₂, hfound⟩ => ?_
  have hc₂ := Cursor.reaches_trans hc₁ h₂
  refine (lands_collect (RuleIn text) fun c' hc' => ?_).bind
    fun rules c₄ ⟨h₄, c₃, hrules, h₃⟩ => ?_
  · have htext := Cursor.reaches_trans hc₂ hc'
    refine (moves_skipTrivia htext c' c'.reaches_refl).bind fun _ c'' h'' => lands_get ?_
    split_ifs
    · exact lands_pure ⟨h'', nofun⟩
    · refine (lands_rule (Cursor.reaches_trans htext h'')).bind fun rule c''' hrule => ?_
      have hbetween := hrule.between.mono h'' c'''.reaches_refl
      refine lands_pure ⟨hbetween.reaches, fun rule' hr => ?_⟩
      cases hr
      exact ⟨hbetween, hrule.located⟩
  · have hbetween := (hrules.between Rule.span fun _ _ _ => RuleIn.between).2
    have hordered := hrules.pairwise Rule.span fun _ _ _ => RuleIn.between
    have hlocated := hrules.forall_mem fun _ _ _ => RuleIn.located
    have hfront := Cursor.reaches_trans h₁ h₂
    cases rules with
    | nil => exact lands_failHere (Cursor.reaches_trans hc₂ h₄) (Fault.openedBefore_of_none rfl)
    | cons rule rules =>
      refine lands_spanFrom (lands_pure ?_)
      have hin : ∀ rule' ∈ rule :: rules, rule'.span.Between c c₄ := fun rule' hm =>
        (hbetween rule' hm).mono hfront h₃
      exact {
        marks := (hin rule List.mem_cons_self).around.marks hc
        initializer := fun i hi =>
          ⟨(hfound i hi).marks hc₁, ((hfound i hi).mono h₁ h₄).within⟩
        rules := fun rule' hm => ⟨hlocated rule' hm, (hin rule' hm).within⟩
        first := fun i hi rule' hm => (hfound i hi).before (hbetween rule' hm)
        ordered := hordered }

end Notation

namespace Grammar

/-- What is read from a text is located in it, and so is the error that there is instead. -/
theorem parse_located (text : String) : (∀ g, parse text = .ok g → g.Located text) ∧
    ∀ e, parse text = .error e → e.Located text := by
  have hlands := Notation.lands_grammar (Cursor.ofText text).reaches_refl
  unfold Notation.Lands at hlands
  unfold parse
  change (∀ g, (Notation.grammar (Cursor.ofText text)).map (·.1) = .ok g → g.Located text) ∧
    ∀ e, (Notation.grammar (Cursor.ofText text)).map (·.1) = .error e → e.Located text
  cases hread : Notation.grammar (Cursor.ofText text) with
  | error e =>
    rw [hread] at hlands
    refine ⟨nofun, fun e' he => ?_⟩
    cases he
    exact NotationError.Placed.located hlands
  | ok p =>
    rw [hread] at hlands
    refine ⟨fun g hg => ?_, nofun⟩
    cases hg
    exact hlands

/-- The second rule starts in the second line, behind a letter of two bytes in the first; and the
group is opened behind such a letter, in the ninth column. -/
theorem parse_located_letters :
    (∃ g, parse "a = 'é' b\nb 'x' = ." = .ok g ∧ g.Located "a = 'é' b\nb 'x' = ." ∧
      g.rules.map (·.span.start) = [.start, ⟨11, 2, 1⟩]) ∧
    ∃ e, parse "a = 'é' ('b'" = .error e ∧ e.Located "a = 'é' ('b'" ∧
      e.fault.opened? = some ⟨9, 1, 9⟩ := by
  have hstarts : (parse "a = 'é' b\nb 'x' = .").toOption.map
      (fun g => g.rules.map (·.span.start)) = some [.start, ⟨11, 2, 1⟩] := by
    decide +kernel
  have hopened : (match parse "a = 'é' ('b'" with
      | .ok _ => none
      | .error e => e.fault.opened?) = some ⟨9, 1, 9⟩ := by
    decide +kernel
  constructor
  · have hlocated := (parse_located "a = 'é' b\nb 'x' = .").1
    cases hparse : parse "a = 'é' b\nb 'x' = ." with
    | error e => rw [hparse] at hstarts; cases hstarts
    | ok g =>
      rw [hparse] at hstarts
      exact ⟨g, rfl, hlocated g hparse, Option.some.inj hstarts⟩
  · have hlocated := (parse_located "a = 'é' ('b'").2
    cases hparse : parse "a = 'é' ('b'" with
    | ok g => rw [hparse] at hopened; cases hopened
    | error e =>
      rw [hparse] at hopened
      exact ⟨e, rfl, hlocated e hparse, hopened⟩

end Grammar
end Peg
