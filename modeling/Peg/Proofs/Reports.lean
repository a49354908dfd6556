import Mathlib.Data.List.Induction
import Peg.Proofs.CodeFree

/-! What a parse without a match reports: the furthest place where something was expected, and what
was. Where results are kept, a rule that is invoked again gives its result without its failures. It
takes from the report what has not been told before, which is so if the rule was run in silence. -/
namespace Peg

variable {σ α β γ : Type}

abbrev Failures := List (ExpectationId × Cursor)

namespace Failures

def furthest (fs : Failures) : Nat := (fs.map (·.2.offset)).foldl max 0

def expected (fs : Failures) : List ExpectationId :=
  (fs.filter (·.2.offset = fs.furthest)).map (·.1)

def wanted (program : Program) (fs : Failures) : List Expectation :=
  (fs.expected.filterMap (program.expectations[·]?)).eraseDups

theorem furthest_append (fs : Failures) (f : ExpectationId × Cursor) :
    furthest (fs ++ [f]) = max fs.furthest f.2.offset := by
  rw [furthest, List.map_append, List.foldl_append]
  rfl

theorem le_furthest {fs : Failures} {f : ExpectationId × Cursor} (hf : f ∈ fs) :
    f.2.offset ≤ fs.furthest := by
  induction fs using List.reverseRecOn with
  | nil => cases hf
  | append_singleton fs g ih =>
    rw [furthest_append]
    rcases List.mem_append.mp hf with hf | hf
    · exact Nat.le_trans (ih hf) (Nat.le_max_left _ _)
    · rw [List.mem_singleton] at hf
      exact hf ▸ Nat.le_max_right _ _

theorem furthest_eq_zero_or_mem (fs : Failures) :
    fs.furthest = 0 ∨ ∃ f ∈ fs, f.2.offset = fs.furthest := by
  induction fs using List.reverseRecOn with
  | nil => exact Or.inl rfl
  | append_singleton fs g ih =>
    rw [furthest_append]
    rcases Nat.le_total (furthest fs) g.2.offset with hle | hle
    · rw [Nat.max_eq_right hle]
      exact Or.inr ⟨g, List.mem_append_right _ List.mem_cons_self, rfl⟩
    · rw [Nat.max_eq_left hle]
      exact ih.imp_right fun ⟨f, hf, ho⟩ => ⟨f, List.mem_append_left _ hf, ho⟩

/-- Only the places of failures matter for the furthest one. -/
theorem furthest_le_of_subset {fs gs : Failures} (h : fs ⊆ gs) : fs.furthest ≤ gs.furthest := by
  rcases furthest_eq_zero_or_mem fs with hz | ⟨f, hf, ho⟩
  · rw [hz]
    exact Nat.zero_le _
  · rw [← ho]
    exact le_furthest (h hf)

theorem expected_append_of_lt {fs : Failures} {f : ExpectationId × Cursor}
    (h : f.2.offset < fs.furthest) : expected (fs ++ [f]) = fs.expected := by
  rw [expected, furthest_append, Nat.max_eq_left (Nat.le_of_lt h), List.filter_append,
    List.filter_singleton, decide_eq_false (Nat.ne_of_lt h)]
  exact congrArg (List.map _) (List.append_nil _)

theorem expected_append_of_eq {fs : Failures} {f : ExpectationId × Cursor}
    (h : f.2.offset = fs.furthest) : expected (fs ++ [f]) = fs.expected ++ [f.1] := by
  rw [expected, furthest_append, h, Nat.max_self, List.filter_append, List.filter_singleton,
    decide_eq_true h, List.map_append]
  rfl

theorem expected_append_of_gt {fs : Failures} {f : ExpectationId × Cursor}
    (h : fs.furthest < f.2.offset) : expected (fs ++ [f]) = [f.1] := by
  have hnil : fs.filter (·.2.offset = f.2.offset) = [] := by
    refine List.filter_eq_nil_iff.mpr fun g hg hd => ?_
    have hle := le_furthest hg
    have he := of_decide_eq_true hd
    omega
  rw [expected, furthest_append, Nat.max_eq_right (Nat.le_of_lt h), List.filter_append, hnil,
    List.filter_singleton, decide_eq_true rfl]
  rfl

end Failures

/-- What is noted of failures is the furthest place and what was expected there. -/
theorem Record.ofFailures_spec {input : String} {fs : Failures}
    (hfs : ∀ f ∈ fs, (Cursor.ofText input).Reaches f.2) :
    (Cursor.ofText input).Reaches (ofFailures input fs).furthest ∧
      (ofFailures input fs).furthest.offset = fs.furthest ∧
      (ofFailures input fs).expected.reverse = fs.expected := by
  -- From the back, as each failure is noted in what was noted of those before it.
  induction fs using List.reverseRecOn with
  | nil => exact ⟨Cursor.reaches_refl _, rfl, rfl⟩
  | append_singleton fs f ih =>
    obtain ⟨hreach, hoffset, hexpected⟩ := ih fun g hg => hfs g (List.mem_append_left _ hg)
    have hf := hfs f (List.mem_append_right _ List.mem_cons_self)
    have hn : ofFailures input (fs ++ [f]) = (ofFailures input fs).note f :=
      noteAll_append _ fs [f]
    rw [hn, Failures.furthest_append]
    unfold note
    rw [hoffset]
    rcases Nat.lt_trichotomy f.2.offset (Failures.furthest fs) with hlt | he | hgt
    · rw [if_pos hlt, Failures.expected_append_of_lt hlt, Nat.max_eq_left (Nat.le_of_lt hlt)]
      exact ⟨hreach, hoffset, hexpected⟩
    · rw [if_neg (by omega), if_neg (by omega), Failures.expected_append_of_eq he, he,
        Nat.max_self]
      refine ⟨hreach, hoffset, ?_⟩
      rw [← hexpected]
      exact List.reverse_cons
    · rw [if_neg (by omega), if_pos hgt, Failures.expected_append_of_gt hgt,
        Nat.max_eq_right (Nat.le_of_lt hgt)]
      exact ⟨hf, rfl, rfl⟩

/-- Two reports are the same if the furthest places are, and what was expected there, up to
repetitions, in the same order. -/
theorem Record.mismatch_eq_iff (program : Program) {input : String} {fs gs : Failures}
    (hfs : ∀ f ∈ fs, (Cursor.ofText input).Reaches f.2)
    (hgs : ∀ g ∈ gs, (Cursor.ofText input).Reaches g.2) :
    (ofFailures input gs).mismatch program = (ofFailures input fs).mismatch program ↔
      gs.furthest = fs.furthest ∧ gs.wanted program = fs.wanted program := by
  obtain ⟨hfreach, hfoffset, hfexpected⟩ := ofFailures_spec hfs
  obtain ⟨hgreach, hgoffset, hgexpected⟩ := ofFailures_spec hgs
  unfold mismatch Failures.wanted
  dsimp only
  rw [hfexpected, hgexpected]
  constructor
  · intro h
    obtain ⟨hwanted, -, hspan⟩ := MatchError.mismatch.inj h
    have ho : (ofFailures input gs).furthest.offset = (ofFailures input fs).furthest.offset :=
      congrArg (fun span : Span => span.start.offset) hspan
    rw [hgoffset, hfoffset] at ho
    exact ⟨ho, hwanted⟩
  · rintro ⟨ho, hwanted⟩
    rw [← hgoffset, ← hfoffset] at ho
    rw [hwanted, Cursor.eq_of_offset_eq hgreach hfreach ho]

/-- Of a list, members are left out that stand in `before` or earlier in what is left. -/
inductive Drops : List β → List β → List β → Prop where
  | nil (before : List β) : Drops before [] []
  | keep {before : List β} {b : β} {all left : List β} (h : Drops (before ++ [b]) all left) :
      Drops before (b :: all) (b :: left)
  | drop {before : List β} {b : β} {all left : List β} (hb : b ∈ before)
      (h : Drops before all left) : Drops before (b :: all) left

namespace Drops

variable {before all left all' left' : List β}

theorem refl (before all : List β) : Drops before all all := by
  induction all generalizing before with
  | nil => exact .nil before
  | cons b all ih => exact .keep (ih (before ++ [b]))

theorem of_subset (h : all ⊆ before) : Drops before all [] := by
  induction all with
  | nil => exact .nil before
  | cons b all ih =>
    exact .drop (h List.mem_cons_self) (ih fun a ha => h (List.mem_cons_of_mem _ ha))

theorem append (h : Drops before all left) (h' : Drops (before ++ left) all' left') :
    Drops before (all ++ all') (left ++ left') := by
  induction h with
  | nil before => rw [List.append_nil] at h'; exact h'
  | keep _ ih =>
    refine .keep (ih ?_)
    rw [List.append_assoc]
    exact h'
  | drop hb _ ih => exact .drop hb (ih h')

theorem subset (h : Drops before all left) : left ⊆ all := by
  induction h with
  | nil => exact List.Subset.refl _
  | keep _ ih => exact List.cons_subset_cons _ ih
  | drop _ _ ih => exact List.Subset.trans ih (List.subset_cons_self _ _)

/-- Nothing is left out altogether. -/
theorem subset_append (h : Drops before all left) : all ⊆ before ++ left := by
  induction h with
  | nil => exact List.nil_subset _
  | @keep before b all left _ ih =>
    rw [List.append_assoc] at ih
    exact List.cons_subset.mpr ⟨List.mem_append_right _ List.mem_cons_self, ih⟩
  | drop hb _ ih => exact List.cons_subset.mpr ⟨List.mem_append_left _ hb, ih⟩

theorem filterMap (f : β → Option γ) (h : Drops before all left) :
    Drops (before.filterMap f) (all.filterMap f) (left.filterMap f) := by
  induction h with
  | nil before => exact .nil _
  | @keep before b all left _ ih =>
    rw [List.filterMap_append] at ih
    cases hb : f b with
    | none =>
      rw [List.filterMap_cons_none hb, List.filterMap_cons_none hb]
      rw [List.filterMap_cons_none hb, List.filterMap_nil, List.append_nil] at ih
      exact ih
    | some c =>
      rw [List.filterMap_cons_some hb, List.filterMap_cons_some hb]
      rw [List.filterMap_cons_some hb, List.filterMap_nil] at ih
      exact .keep ih
  | @drop before b all left hb _ ih =>
    cases hc : f b with
    | none => rw [List.filterMap_cons_none hc]; exact ih
    | some c =>
      rw [List.filterMap_cons_some hc]
      exact .drop (List.mem_filterMap.mpr ⟨b, hb, hc⟩) ih

/-- Up to repetitions, the lists are the same. -/
theorem eraseDups_eq [BEq β] [LawfulBEq β] (h : Drops before all left) :
    (before ++ left).eraseDups = (before ++ all).eraseDups := by
  induction h with
  | nil => rfl
  | @keep before b all left _ ih =>
    rw [List.append_assoc, List.append_assoc] at ih
    exact ih
  | @drop before b all left hb _ ih =>
    rw [ih, List.eraseDups_append, List.eraseDups_append]
    congr 2
    rw [List.removeAll, List.removeAll, List.filter_cons_of_neg]
    rw [Bool.not_eq_true, List.elem_eq_contains, List.contains_iff_mem.mpr hb]
    rfl

end Drops

/-- What is told again may be left out of a report. -/
theorem Failures.report_eq_of_drops (program : Program) {fs gs : Failures} (h : Drops [] fs gs) :
    gs.furthest = fs.furthest ∧ gs.wanted program = fs.wanted program := by
  have hf : gs.furthest = fs.furthest :=
    Nat.le_antisymm (furthest_le_of_subset h.subset) (furthest_le_of_subset h.subset_append)
  refine ⟨hf, ?_⟩
  have hd := (h.filterMap fun f => if f.2.offset = fs.furthest then some f.1 else none).filterMap
    (program.expectations[·]?)
  have he := hd.eraseDups_eq
  have hexpected (hs : Failures) : (hs.filterMap fun f =>
      if f.2.offset = fs.furthest then some f.1 else none) =
      (hs.filter (·.2.offset = fs.furthest)).map (·.1) := by
    rw [← List.filterMap_eq_map, List.filterMap_filter]
    congr 1
    funext f
    by_cases ho : f.2.offset = fs.furthest
    · rw [if_pos ho, if_pos (decide_eq_true ho)]
      rfl
    · rw [if_neg ho, if_neg (by simpa only [decide_eq_true_eq] using ho)]
  rw [List.filterMap_nil, List.filterMap_nil, hexpected, hexpected] at he
  unfold wanted expected
  rw [hf]
  exact he

end Peg
