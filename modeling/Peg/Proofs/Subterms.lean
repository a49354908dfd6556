import Mathlib.Data.List.Basic
import Peg.Grammar.Expr

/-! The parts of expressions, the names that they refer to, and what rebuilding makes of lists. -/
namespace Peg.Expr

def refs (e : Expr) : List String := e.subterms.filterMap asRef?

/-- What stands under a display name is the name around the rest. -/
theorem exists_of_asNamed? {e body : Expr} {name : String} (h : e.asNamed? = some (name, body)) :
    ∃ span, e = .wrapped span (.named name) body := by
  cases e with
  | wrapped span wrapper inside =>
    cases wrapper <;> cases h
    exact ⟨span, rfl⟩
  | literal | charClass | any | ruleRef | predicate | sequence | choice => cases h

theorem mem_subterms_self (e : Expr) : e ∈ e.subterms := by
  cases e <;> exact List.mem_cons_self

theorem mem_subtermsOfAll {es : List Expr} {e : Expr} :
    e ∈ subtermsOfAll es ↔ ∃ part ∈ es, e ∈ part.subterms := by
  induction es with
  | nil => simp [subtermsOfAll]
  | cons part es ih => simp [subtermsOfAll, ih]

theorem forall_mem_subtermsOfAll {es : List Expr} {P : Expr → Prop} :
    (∀ part ∈ subtermsOfAll es, P part) ↔ ∀ e ∈ es, ∀ part ∈ e.subterms, P part := by
  constructor
  · intro h e he part hp
    exact h part (mem_subtermsOfAll.mpr ⟨e, he, hp⟩)
  · intro h part hm
    obtain ⟨e, he, hp⟩ := mem_subtermsOfAll.mp hm
    exact h e he part hp

/-- The parts of a part are parts. -/
theorem mem_subterms_trans {e part inner : Expr} (hi : inner ∈ part.subterms)
    (hp : part ∈ e.subterms) : inner ∈ e.subterms := by
  induction e using Expr.induct with
  | literal | charClass | any | ruleRef | predicate =>
    cases List.mem_singleton.mp hp
    exact hi
  | sequence span es ih | choice span es ih =>
    rw [subterms] at hp ⊢
    rcases List.mem_cons.mp hp with rfl | hp
    · rwa [subterms] at hi
    · obtain ⟨e, he, hp⟩ := mem_subtermsOfAll.mp hp
      exact List.mem_cons_of_mem _ (mem_subtermsOfAll.mpr ⟨e, he, ih e he hp⟩)
  | wrapped span wrapper body ih =>
    rw [subterms] at hp ⊢
    rcases List.mem_cons.mp hp with rfl | hp
    · rwa [subterms] at hi
    · exact List.mem_cons_of_mem _ (ih hp)

theorem mem_refs {e : Expr} {name : String} :
    name ∈ e.refs ↔ ∃ part ∈ e.subterms, part.asRef? = some name :=
  List.mem_filterMap

theorem refs_ruleRef (span : Span) (name : String) : (ruleRef span name).refs = [name] := by
  simp [refs, subterms, asRef?]

/-- A row of expressions refers to what they refer to. -/
theorem mem_refs_row {row : Expr} {es : List Expr} {name : String}
    (hs : row.subterms = row :: subtermsOfAll es) (hr : row.asRef? = none) :
    name ∈ row.refs ↔ ∃ e ∈ es, name ∈ e.refs := by
  simp only [mem_refs, hs, List.mem_cons, mem_subtermsOfAll]
  constructor
  · rintro ⟨part, rfl | ⟨e, he, hp⟩, hn⟩
    · cases hr.symm.trans hn
    · exact ⟨e, he, part, hp, hn⟩
  · rintro ⟨e, he, part, hp, hn⟩
    exact ⟨part, Or.inr ⟨e, he, hp⟩, hn⟩

theorem mem_refs_sequence {span : Span} {es : List Expr} {name : String} :
    name ∈ (sequence span es).refs ↔ ∃ e ∈ es, name ∈ e.refs :=
  mem_refs_row (by rw [subterms]) rfl

theorem mem_refs_choice {span : Span} {es : List Expr} {name : String} :
    name ∈ (choice span es).refs ↔ ∃ e ∈ es, name ∈ e.refs :=
  mem_refs_row (by rw [subterms]) rfl

theorem refs_wrapped (span : Span) (wrapper : Wrapper) (body : Expr) :
    (wrapped span wrapper body).refs = body.refs := by
  simp only [refs, subterms, List.filterMap_cons, asRef?]

/-- What a part refers to the expression refers to. -/
theorem mem_refs_of_subterm {e part : Expr} {name : String} (hp : part ∈ e.subterms)
    (hn : name ∈ part.refs) : name ∈ e.refs := by
  obtain ⟨inner, hi, hr⟩ := mem_refs.mp hn
  exact mem_refs.mpr ⟨inner, mem_subterms_trans hi hp, hr⟩

theorem rebuildAll_eq_map (f : Expr → Expr) (es : List Expr) :
    rebuildAll f es = es.map (rebuild f) := by
  induction es with
  | nil => rw [rebuildAll, List.map_nil]
  | cons e es ih => rw [rebuildAll, List.map_cons, ih]

/-- Rebuilding changes nothing if no part is changed by itself. -/
theorem rebuild_of_fixed {f : Expr → Expr} {e : Expr} (h : ∀ part ∈ e.subterms, f part = part) :
    e.rebuild f = e := by
  induction e using Expr.induct with
  | literal | charClass | any | ruleRef | predicate => exact h _ (mem_subterms_self _)
  | sequence span es ih | choice span es ih =>
    rw [subterms, List.forall_mem_cons] at h
    have hes : rebuildAll f es = es := by
      rw [rebuildAll_eq_map]
      calc
        es.map (rebuild f) = es.map id :=
          List.map_congr_left fun e he => ih e he (forall_mem_subtermsOfAll.mp h.2 e he)
        _ = es := List.map_id es
    rw [rebuild, hes, h.1]
  | wrapped span wrapper body ih =>
    rw [subterms, List.forall_mem_cons] at h
    rw [rebuild, ih h.2, h.1]

end Peg.Expr
