import Peg.Proofs.ClassSearch

/-! What character classes match. However their parts are ordered and overlap, sorting and merging
them keeps the characters that they hold, and leaves gaps between the ranges; so that matching finds
what one finds by looking through the parts. -/
namespace Peg

namespace CharClass

/-- Some part of the class holds the character. -/
def Lists (members : CharClass) (c : Char) : Prop := ∃ part ∈ members.parts, part.contains c = true

/-- The class lists the character, or, where case is ignored, a character of its lowercase or of its
uppercase form. -/
def Finds (members : CharClass) (c : Char) : Prop :=
  members.Lists c ∨
    members.ignoreCase = true ∧ ∃ d ∈ Unicode.lowercase c ++ Unicode.uppercase c, members.Lists d

/-- The class finds the character or, if it is inverted, does not find it. -/
def Includes (members : CharClass) (c : Char) : Prop :=
  if members.inverted then ¬ members.Finds c else members.Finds c

end CharClass

theorem ClassPart.contains_eq_holds (part : ClassPart) (c : Char) :
    part.contains c = ClassMatcher.holds c part.bounds := by
  cases part with
  | range first last => rfl
  | single d =>
    show (d == c) = (decide (d ≤ c) && decide (c ≤ d))
    rw [Bool.eq_iff_iff, beq_iff_eq, Bool.and_eq_true, decide_eq_true_iff, decide_eq_true_iff]
    exact le_antisymm_iff

namespace ClassMatcher

/-- Where the second range begins inside the first one or right behind it, the two hold what lies
between their outer ends. -/
theorem holds_union {r s : Char × Char} (hle : r.1 ≤ s.1) (htouch : s.1.toNat ≤ r.2.toNat + 1)
    (c : Char) :
    holds c (r.1, if r.2 ≤ s.2 then s.2 else r.2) = (holds c r || holds c s) := by
  have hle : r.1.toNat ≤ s.1.toNat := hle
  have hiff (range : Char × Char) :
      holds c range = true ↔ range.1.toNat ≤ c.toNat ∧ c.toNat ≤ range.2.toNat := holds_iff
  rw [Bool.eq_iff_iff, Bool.or_eq_true, hiff, hiff, hiff]
  dsimp only
  split
  · rename_i hends
    have hends : r.2.toNat ≤ s.2.toNat := hends
    omega
  · rename_i hends
    have hends : s.2.toNat < r.2.toNat := not_le.mp hends
    omega

/-- Merging sorted ranges keeps the characters that they hold. -/
theorem any_mergeInto {current : Char × Char} {ranges : List (Char × Char)}
    (h : (current :: ranges).Pairwise fun r s => r.1 ≤ s.1) (c : Char) :
    (mergeInto current ranges).any (holds c) = (current :: ranges).any (holds c) := by
  induction ranges generalizing current with
  | nil => rfl
  | cons range ranges ih =>
    obtain ⟨hcurrent, hranges⟩ := List.pairwise_cons.mp h
    obtain ⟨hrange, hrest⟩ := List.forall_mem_cons.mp hcurrent
    rw [mergeInto]
    split
    · rename_i htouch
      have hunion := holds_union hrange htouch c
      have hsorted : ((current.1, if current.2 ≤ range.2 then range.2 else current.2) ::
          ranges).Pairwise fun r s => r.1 ≤ s.1 :=
        List.pairwise_cons.mpr ⟨hrest, (List.pairwise_cons.mp hranges).2⟩
      rw [ih hsorted]
      simp only [List.any_cons, hunion, Bool.or_assoc]
    · simp only [List.any_cons, ih hranges]

/-- The ranges of a class hold the characters that its parts hold. -/
theorem any_rangesOf (parts : List ClassPart) (c : Char) :
    (rangesOf parts).any (holds c) = parts.any (·.contains c) := by
  have hmerged (ranges : List (Char × Char)) (h : ranges.Pairwise fun r s => r.1 ≤ s.1) :
      (mergeRanges ranges).any (holds c) = ranges.any (holds c) := by
    cases ranges with
    | nil => rfl
    | cons current ranges => exact any_mergeInto h c
  have hperm := List.mergeSort_perm (parts.map ClassPart.bounds) rangeLe
  calc (rangesOf parts).any (holds c)
      = ((parts.map ClassPart.bounds).mergeSort rangeLe).any (holds c) :=
        hmerged _ (sorted_bounds parts)
    _ = (parts.map ClassPart.bounds).any (holds c) := by
        rw [Bool.eq_iff_iff, List.any_eq_true, List.any_eq_true]
        simp only [hperm.mem_iff]
    _ = parts.any (·.contains c) := by
        rw [List.any_map]
        simp only [Function.comp_def, ClassPart.contains_eq_holds]

variable {members : CharClass}

theorem contains_iff_lists (ho : ∀ part ∈ members.parts, part.bounds.1 ≤ part.bounds.2)
    (forSpeed : Bool) (c : Char) :
    (ofClass members forSpeed).contains c = true ↔ members.Lists c := by
  rw [contains_ofClass (searchable_rangesOf ho), any_rangesOf, List.any_eq_true]
  rfl

/-- A class whose ranges have their ends in order matches what one finds by looking through its
parts, with and without a table. The ranges that it keeps are sorted, and between two of them there
is at least one code point that is in neither. -/
theorem accepts_iff_includes (ho : ∀ part ∈ members.parts, part.bounds.1 ≤ part.bounds.2)
    (forSpeed : Bool) :
    (∀ c, (ofClass members forSpeed).accepts c = true ↔ members.Includes c) ∧
      (∀ range ∈ (ofClass members forSpeed).ranges.toList, range.1 ≤ range.2) ∧
      (ofClass members forSpeed).ranges.toList.Pairwise Apart := by
  have hlists := contains_iff_lists ho forSpeed
  refine ⟨fun c => ?_, ordered_rangesOf ho, rangesOf_apart members.parts⟩
  have hany (ds : List Char) :
      ds.any (ofClass members forSpeed).contains = true ↔ ∃ d ∈ ds, members.Lists d := by
    rw [List.any_eq_true]
    exact exists_congr fun d => and_congr_right fun _ => hlists d
  obtain ⟨found, haccepts, hfound⟩ : ∃ found : Bool,
      (ofClass members forSpeed).accepts c = (found != members.inverted) ∧
        (found = true ↔ members.Finds c) := by
    refine ⟨_, rfl, ?_⟩
    rw [← List.any_append, Bool.or_eq_true, Bool.and_eq_true, hlists, hany]
    rfl
  rw [haccepts, CharClass.Includes, ← hfound]
  cases members.inverted with
  | false => rw [Bool.bne_false, if_neg Bool.false_ne_true]
  | true => rw [Bool.bne_true, if_pos rfl, Bool.not_eq_true', Bool.not_eq_true]

/-- Parts out of order, of which some overlap, some touch and one holds another. -/
def scatteredClass : CharClass :=
  ⟨[.range 'd' 'f', .single 'c', .range 'a' 'b', .range 'x' 'z', .range 'y' 'y'], true, true⟩

theorem accepts_iff_includes_scattered :
    (∀ part ∈ scatteredClass.parts, part.bounds.1 ≤ part.bounds.2) ∧
      (ofClass scatteredClass true).accepts 'E' = false ∧
      (ofClass scatteredClass false).ranges.toList.Pairwise Apart := by
  have ho : ∀ part ∈ scatteredClass.parts, part.bounds.1 ≤ part.bounds.2 := by decide
  have hfinds : scatteredClass.Finds 'E' :=
    Or.inr ⟨rfl, 'e', by decide, .range 'd' 'f', by decide, by decide⟩
  refine ⟨ho, ?_, (accepts_iff_includes ho false).2.2⟩
  rw [← Bool.not_eq_true, (accepts_iff_includes ho true).1]
  exact fun hincludes => hincludes hfinds

end ClassMatcher
end Peg
