import Mathlib.Data.Char
import Mathlib.Data.List.Pairwise
import Peg.Program.ClassMatcher

/-! Character classes by table and by halving. The ranges of a class are sorted and lie apart, so
that halving ends at the last one that does not begin behind the character. A range whose ends are
in the wrong order holds nothing, but it may lead the search astray, as what lies behind its end is
looked for behind the range. -/
namespace Peg.ClassMatcher

theorem holds_iff {c : Char} {range : Char × Char} :
    holds c range = true ↔ range.1 ≤ c ∧ c ≤ range.2 := by
  unfold holds
  rw [Bool.and_eq_true, decide_eq_true_iff, decide_eq_true_iff]

theorem rangeLe_iff {r s : Char × Char} :
    rangeLe r s = true ↔ r.1 < s.1 ∨ r.1 = s.1 ∧ r.2 ≤ s.2 := by
  unfold rangeLe
  rw [Bool.or_eq_true, Bool.and_eq_true, decide_eq_true_iff, decide_eq_true_iff, beq_iff_eq]

theorem rangeLe_trans (r s t : Char × Char) (hrs : rangeLe r s = true) (hst : rangeLe s t = true) :
    rangeLe r t = true := by
  rw [rangeLe_iff] at hrs hst ⊢
  rcases hrs with hrs | ⟨hrs, hrs'⟩
  · rcases hst with hst | ⟨hst, -⟩
    · exact Or.inl (lt_trans hrs hst)
    · exact Or.inl (hst ▸ hrs)
  · rcases hst with hst | ⟨hst, hst'⟩
    · exact Or.inl (hrs ▸ hst)
    · exact Or.inr ⟨hrs.trans hst, le_trans hrs' hst'⟩

theorem rangeLe_total (r s : Char × Char) : (rangeLe r s || rangeLe s r) = true := by
  rw [Bool.or_eq_true, rangeLe_iff, rangeLe_iff]
  rcases lt_trichotomy r.1 s.1 with h | h | h
  · exact Or.inl (Or.inl h)
  · rcases le_total r.2 s.2 with h' | h'
    · exact Or.inl (Or.inr ⟨h, h'⟩)
    · exact Or.inr (Or.inr ⟨h.symm, h'⟩)
  · exact Or.inr (Or.inl h)

/-- The second range begins further on than right behind the first one. -/
def Apart (r s : Char × Char) : Prop := r.1 ≤ s.1 ∧ r.2.toNat + 1 < s.1.toNat

/-- Sorted ranges lie apart when they are merged, and none begins before the first one. -/
theorem mergeInto_apart {current : Char × Char} {ranges : List (Char × Char)}
    (h : (current :: ranges).Pairwise fun r s => r.1 ≤ s.1) :
    (∀ s ∈ mergeInto current ranges, current.1 ≤ s.1) ∧
      (mergeInto current ranges).Pairwise Apart := by
  induction ranges generalizing current with
  | nil => exact ⟨fun s hs => List.mem_singleton.mp hs ▸ le_refl _, List.pairwise_singleton _ _⟩
  | cons range ranges ih =>
    obtain ⟨hcurrent, hranges⟩ := List.pairwise_cons.mp h
    obtain ⟨hrange, hrest⟩ := List.forall_mem_cons.mp hcurrent
    rw [mergeInto]
    split
    · exact ih (List.pairwise_cons.mpr ⟨hrest, (List.pairwise_cons.mp hranges).2⟩)
    · rename_i hgap
      obtain ⟨hle, hapart⟩ := ih hranges
      have hbehind : ∀ s ∈ mergeInto range ranges, Apart current s := by
        intro s hs
        have hs : range.1.toNat ≤ s.1.toNat := hle s hs
        exact ⟨le_trans hrange (hle s ‹_›), by omega⟩
      refine ⟨List.forall_mem_cons.mpr ⟨le_refl _, fun s hs => (hbehind s hs).1⟩, ?_⟩
      exact List.pairwise_cons.mpr ⟨hbehind, hapart⟩

theorem mergeInto_ordered {current : Char × Char} {ranges : List (Char × Char)}
    (h : ∀ r ∈ current :: ranges, r.1 ≤ r.2) : ∀ s ∈ mergeInto current ranges, s.1 ≤ s.2 := by
  induction ranges generalizing current with
  | nil => exact h
  | cons range ranges ih =>
    obtain ⟨hcurrent, hrange, hrest⟩ := by simpa only [List.forall_mem_cons] using h
    rw [mergeInto]
    split
    · refine ih (List.forall_mem_cons.mpr ⟨?_, hrest⟩)
      dsimp only
      split
      · exact le_trans hcurrent ‹_›
      · exact hcurrent
    · exact List.forall_mem_cons.mpr ⟨hcurrent, ih (List.forall_mem_cons.mpr ⟨hrange, hrest⟩)⟩

theorem sorted_bounds (parts : List ClassPart) :
    ((parts.map ClassPart.bounds).mergeSort rangeLe).Pairwise fun r s => r.1 ≤ s.1 := by
  refine (List.pairwise_mergeSort rangeLe_trans rangeLe_total _).imp fun {r s} hrs => ?_
  rcases rangeLe_iff.mp hrs with h | ⟨h, -⟩
  · exact le_of_lt h
  · exact le_of_eq h

/-- The ranges of a class lie apart. -/
theorem rangesOf_apart (parts : List ClassPart) : (rangesOf parts).Pairwise Apart := by
  have hsorted := sorted_bounds parts
  unfold rangesOf
  cases hranges : (parts.map ClassPart.bounds).mergeSort rangeLe with
  | nil => exact .nil
  | cons current ranges =>
    rw [hranges] at hsorted
    exact (mergeInto_apart hsorted).2

/-- Ranges in which halving is not led astray: what holds a character ends no further on than all
that stands behind it. -/
def Searchable (ranges : List (Char × Char)) : Prop :=
  ranges.Pairwise fun r s => r.1 ≤ r.2 → r.2 ≤ s.2

instance (ranges : List (Char × Char)) : Decidable (Searchable ranges) :=
  inferInstanceAs (Decidable (ranges.Pairwise _))

/-- The ranges of a class have their ends in order if all its parts do. -/
theorem ordered_rangesOf {parts : List ClassPart}
    (h : ∀ part ∈ parts, part.bounds.1 ≤ part.bounds.2) : ∀ s ∈ rangesOf parts, s.1 ≤ s.2 := by
  unfold rangesOf
  cases hranges : (parts.map ClassPart.bounds).mergeSort rangeLe with
  | nil => exact fun s hs => (nomatch hs)
  | cons current ranges =>
    refine mergeInto_ordered fun r hr => ?_
    rw [← hranges, List.mem_mergeSort, List.mem_map] at hr
    obtain ⟨part, hm, rfl⟩ := hr
    exact h part hm

/-- The ranges of a class are searchable if all its parts have their ends in order. -/
theorem searchable_rangesOf {parts : List ClassPart}
    (h : ∀ part ∈ parts, part.bounds.1 ≤ part.bounds.2) : Searchable (rangesOf parts) := by
  refine (rangesOf_apart parts).imp_of_mem fun {r s} _ hs hapart _ => ?_
  have hlt : r.2.toNat + 1 < s.1.toNat := hapart.2
  have hle : s.1.toNat ≤ s.2.toNat := ordered_rangesOf h s hs
  have hends : r.2.toNat ≤ s.2.toNat := by omega
  exact hends

section Search

variable {ranges : Array (Char × Char)} {c : Char} {i : Nat}

/-- Halving ends at the range before which it never stops, and behind which it always does. -/
theorem narrow_eq
    (hbefore : ∀ j ≤ i, ranges[j]?.any (fun range => c ≤ range.2 && c < range.1) = false)
    (hbehind : ∀ j, i < j → j < ranges.size →
      ranges[j]?.any (fun range => c ≤ range.2 && c < range.1) = true)
    (steps : Nat) {base size : Nat} (hbase : base ≤ i) (hi : i < base + size)
    (hsize : base + size ≤ ranges.size) (hsteps : size ≤ steps + 1) :
    narrow ranges c steps base size = i := by
  -- The range that is looked for stays between `base` and `base + size`, and half of them go in
  -- each step.
  induction steps generalizing base size with
  | zero =>
    rw [narrow]
    omega
  | succ steps ih =>
    rw [narrow]
    split
    · omega
    · rename_i hlarge
      dsimp only
      by_cases hhalf : base + size / 2 ≤ i
      · rw [hbefore _ hhalf, if_neg Bool.false_ne_true]
        exact ih hhalf (by omega) (by omega) (by omega)
      · rw [hbehind _ (by omega) (by omega), if_pos rfl]
        exact ih hbase (by omega) (by omega) (by omega)

/-- Halving finds a range that holds the character if one does. -/
theorem search_eq_any {ranges : List (Char × Char)} (ha : ranges.Pairwise Apart)
    (hs : Searchable ranges) (c : Char) : search ranges.toArray c = ranges.any (holds c) := by
  rw [Bool.eq_iff_iff, List.any_eq_true]
  constructor
  · intro h
    obtain ⟨range, hget, hholds⟩ := (Option.any_eq_true _ _).mp h
    rw [List.getElem?_toArray] at hget
    exact ⟨range, List.mem_of_getElem? hget, hholds⟩
  · rintro ⟨range, hm, hholds⟩
    obtain ⟨i, hi, rfl⟩ := List.mem_iff_getElem.mp hm
    obtain ⟨hfirst, hlast⟩ := holds_iff.mp hholds
    -- No range up to `i` begins behind `c`, since they are sorted by where they begin.
    have hbefore : ∀ j ≤ i, ranges.toArray[j]?.any
        (fun range => c ≤ range.2 && c < range.1) = false := by
      intro j hj
      have hle : ranges[j].1 ≤ ranges[i].1 := by
        rcases Nat.lt_or_eq_of_le hj with hlt | rfl
        · exact (List.pairwise_iff_getElem.mp ha j i (by omega) hi hlt).1
        · exact le_refl _
      have hnot : ¬ c < ranges[j].1 := not_lt.mpr (le_trans hle hfirst)
      simp [List.getElem?_eq_getElem (show j < ranges.length by omega), hnot]
    have hbehind : ∀ j, i < j → j < ranges.toArray.size → ranges.toArray[j]?.any
        (fun range => c ≤ range.2 && c < range.1) = true := by
      intro j hj hlt
      rw [List.size_toArray] at hlt
      have hends : ranges[i].2 ≤ ranges[j].2 :=
        List.pairwise_iff_getElem.mp hs i j hi hlt hj (le_trans hfirst hlast)
      have hgap := (List.pairwise_iff_getElem.mp ha i j hi hlt hj).2
      have hbegins : c < ranges[j].1 :=
        lt_of_le_of_lt hlast (show ranges[i].2.toNat < ranges[j].1.toNat by omega)
      simp [List.getElem?_eq_getElem hlt, le_trans hlast hends, hbegins]
    have hfound : narrow ranges.toArray c ranges.length 0 ranges.length = i :=
      narrow_eq hbefore hbehind ranges.length (by omega) (by omega) (by simp) (by omega)
    unfold search
    rw [List.size_toArray, hfound, List.getElem?_toArray, List.getElem?_eq_getElem hi]
    exact hholds

end Search

variable {members : CharClass}

/-- The table for ASCII characters and halving give the same answers if halving is not led
astray. -/
theorem contains_ofClass (h : Searchable (rangesOf members.parts)) (forSpeed : Bool) (c : Char) :
    (ofClass members forSpeed).contains c = (rangesOf members.parts).any (holds c) := by
  have hsearch := search_eq_any (rangesOf_apart members.parts) h c
  cases forSpeed with
  | false => exact hsearch
  | true =>
    unfold contains ofClass
    by_cases hc : c.toNat < 128
    · simp [hc, Char.ofNat_toNat]
    · simpa [hc] using hsearch

/-- A class that is made for speed matches the characters that it matches when made for size. -/
theorem accepts_ofClass (h : Searchable (rangesOf members.parts)) (forSpeed forSpeed' : Bool) :
    (ofClass members forSpeed).accepts = (ofClass members forSpeed').accepts := by
  have hcontains : (ofClass members forSpeed).contains = (ofClass members forSpeed').contains := by
    funext c
    rw [contains_ofClass h, contains_ofClass h]
  funext c
  unfold accepts
  rw [hcontains]
  rfl

end Peg.ClassMatcher
