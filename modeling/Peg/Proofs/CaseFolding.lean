import Peg.Proofs.Cursor

/-! Literals up to case. The characters of the input are lowercased one by one, a literal as a
whole. The two differ in one point: a capital sigma that ends a word of the literal becomes a final
sigma. So a literal matches what agrees with it character by character if and only if it has no such
sigma; if it has one, it does not even match itself. -/
namespace Peg

namespace Unicode

/-- In a text behind `before`, whose characters are given from last to first, a capital sigma ends a
word: case-ignorable characters left out, a cased one comes before it and none after it. -/
def HasFinalSigma (before cs : List Char) : Prop :=
  ∃ front back, cs = front ++ 'Σ' :: back ∧ startsCased (front.reverse ++ before) = true ∧
    startsCased back = false

theorem hasFinalSigma_nil (before : List Char) : ¬ HasFinalSigma before [] := by
  rintro ⟨front, back, h, -⟩
  exact List.cons_ne_nil _ _ (List.append_eq_nil_iff.mp h.symm).2

theorem hasFinalSigma_cons {before cs : List Char} {c : Char} : HasFinalSigma before (c :: cs) ↔
    (c = 'Σ' ∧ startsCased before = true ∧ startsCased cs = false) ∨
      HasFinalSigma (c :: before) cs := by
  have hshift (front : List Char) :
      (c :: front).reverse ++ before = front.reverse ++ c :: before := by
    rw [List.reverse_cons, List.append_assoc, List.singleton_append]
  constructor
  · rintro ⟨front, back, h, hbefore, hback⟩
    cases front with
    | nil =>
      obtain ⟨rfl, rfl⟩ := List.cons.inj h
      exact Or.inl ⟨rfl, hbefore, hback⟩
    | cons d front =>
      obtain ⟨rfl, rfl⟩ := List.cons.inj h
      rw [hshift] at hbefore
      exact Or.inr ⟨front, back, rfl, hbefore, hback⟩
  · rintro (⟨rfl, hbefore, hback⟩ | ⟨front, back, rfl, hbefore, hback⟩)
    · exact ⟨[], cs, rfl, hbefore, hback⟩
    · refine ⟨c :: front, back, rfl, ?_, hback⟩
      rwa [hshift]

theorem lowercase_sigma : lowercase 'Σ' = ['σ'] := by decide

/-- A text is lowercased character by character if and only if no sigma ends a word of it. -/
theorem lowercaseTextFrom_eq_iff {before cs : List Char} :
    lowercaseTextFrom before cs = cs.flatMap lowercase ↔ ¬ HasFinalSigma before cs := by
  induction cs generalizing before with
  | nil => exact iff_of_true rfl (hasFinalSigma_nil before)
  | cons c cs ih =>
    rw [hasFinalSigma_cons, not_or, ← ih, lowercaseTextFrom, List.flatMap_cons]
    split
    · rename_i hsigma
      subst hsigma
      rw [lowercase_sigma]
      cases hbefore : startsCased before <;> cases hback : startsCased cs <;> simp
    · rename_i hother
      rw [List.append_cancel_left_eq]
      exact ⟨fun h => ⟨fun hsigma => hother hsigma.1, h⟩, And.right⟩

theorem lowercaseText_eq_iff {cs : List Char} :
    lowercaseText cs = cs.flatMap lowercase ↔ ¬ HasFinalSigma [] cs :=
  lowercaseTextFrom_eq_iff

end Unicode

/-- Between the two places stand `length` characters, whose lowercase forms make up `folded`. -/
def Cursor.Folds (start stop : Cursor) (length : Nat) (folded : List Char) : Prop :=
  ∃ window, start.rest = window ++ stop.rest ∧ stop = start.skip window.length ∧
    window.length = length ∧ window.flatMap Unicode.lowercase = folded

namespace LiteralMatcher

/-- Up to case, a literal matches as many characters as it has, if their lowercase forms make up
that of the whole literal. -/
theorem matchAt_iff_folds {matcher : LiteralMatcher} (hi : matcher.literal.ignoreCase = true)
    {c stop : Cursor} :
    matcher.matchAt c = some stop ↔ c.Folds stop matcher.length matcher.folded := by
  unfold matchAt
  rw [if_pos hi]
  dsimp only
  constructor
  · intro h
    split at h
    · rename_i hwindow
      cases h
      refine ⟨c.rest.take matcher.length, ?_, ?_, hwindow.1, hwindow.2⟩
      · rw [Cursor.rest_skip, List.take_append_drop]
      · rw [hwindow.1]
    · cases h
  · rintro ⟨window, hrest, rfl, hlength, hfolded⟩
    have htake : c.rest.take matcher.length = window := by
      rw [hrest, ← hlength, List.take_left]
    rw [htake, if_pos ⟨hlength, hfolded⟩, hlength]

/-- The text itself is what stands between its start and its end. -/
theorem folds_itself (text : String) :
    (Cursor.ofText text).Folds (Cursor.ofText text).toEnd text.toList.length
      (text.toList.flatMap Unicode.lowercase) := by
  refine ⟨text.toList, ?_, rfl, rfl, rfl⟩
  have hend : (Cursor.ofText text).toEnd.rest = [] := by
    rw [Cursor.toEnd, Cursor.rest_skip, List.drop_length]
  rw [hend, List.append_nil]
  rfl

/-- Only characters whose lowercase forms are those of the literal as a whole are matched; so from
the start of its own text only a literal is matched that is lowercased character by character. -/
theorem matchAt_itself {text : String} {stop : Cursor}
    (h : (ofLiteral ⟨text, true⟩).matchAt (Cursor.ofText text) = some stop) :
    ¬ Unicode.HasFinalSigma [] text.toList := by
  obtain ⟨window, hrest, -, hlength, hfolded⟩ := (matchAt_iff_folds rfl).mp h
  have hrest : text.toList = window ++ stop.rest := hrest
  have hlength : window.length = text.toList.length := hlength
  have hwhole : window = text.toList := by
    have hnone : stop.rest = [] := by
      have hcount := congrArg List.length hrest
      rw [List.length_append, hlength] at hcount
      exact List.length_eq_zero_iff.mp (by omega)
    rw [hrest, hnone, List.append_nil]
  rw [hwhole] at hfolded
  exact Unicode.lowercaseText_eq_iff.mp hfolded.symm

/-- A literal matches, up to case, where the lowercase forms of as many characters make up that of
the literal. It matches where they are those of its own characters, and then itself, if and only if
no sigma ends a word of it; two such literals match the same if they have as many characters and the
same lowercase forms. -/
theorem ignoresCase_iff (text : String) :
    (∀ c stop : Cursor, (ofLiteral ⟨text, true⟩).matchAt c = some stop ↔
      c.Folds stop text.toList.length (Unicode.lowercaseText text.toList)) ∧
    ((∀ c stop : Cursor, (ofLiteral ⟨text, true⟩).matchAt c = some stop ↔
      c.Folds stop text.toList.length (text.toList.flatMap Unicode.lowercase)) ↔
      ¬ Unicode.HasFinalSigma [] text.toList) ∧
    ((ofLiteral ⟨text, true⟩).matchAt (Cursor.ofText text) = some (Cursor.ofText text).toEnd ↔
      ¬ Unicode.HasFinalSigma [] text.toList) ∧
    ∀ text' : String, ¬ Unicode.HasFinalSigma [] text.toList →
      ¬ Unicode.HasFinalSigma [] text'.toList → text'.toList.length = text.toList.length →
      text'.toList.flatMap Unicode.lowercase = text.toList.flatMap Unicode.lowercase →
      (ofLiteral ⟨text', true⟩).matchAt = (ofLiteral ⟨text, true⟩).matchAt := by
  have hplain {text : String} (h : ¬ Unicode.HasFinalSigma [] text.toList) (c stop : Cursor) :
      (ofLiteral ⟨text, true⟩).matchAt c = some stop ↔
        c.Folds stop text.toList.length (text.toList.flatMap Unicode.lowercase) := by
    rw [← Unicode.lowercaseText_eq_iff.mpr h]
    exact matchAt_iff_folds rfl
  -- What a literal does as its own characters do makes it match itself, which no sigma at the end
  -- of a word allows.
  refine ⟨fun c stop => matchAt_iff_folds rfl, ⟨fun h => ?_, hplain⟩,
    ⟨matchAt_itself, fun h => ?_⟩, ?_⟩
  · exact matchAt_itself ((h _ _).mpr (folds_itself text))
  · exact (hplain h _ _).mpr (folds_itself text)
  · intro text' h h' hlength hfolded
    funext c
    apply Option.ext
    intro stop
    rw [hplain h, hplain h', hlength, hfolded]

theorem ignoresCase_iff_eszett : ¬ Unicode.HasFinalSigma [] "Straße".toList ∧
    (ofLiteral ⟨"Straße", true⟩).matchAt (Cursor.ofText "Straße") =
      some (Cursor.ofText "Straße").toEnd ∧
    (ofLiteral ⟨"STRAßE", true⟩).matchAt = (ofLiteral ⟨"Straße", true⟩).matchAt := by
  have hplain : ¬ Unicode.HasFinalSigma [] "Straße".toList :=
    Unicode.lowercaseText_eq_iff.mp (by decide +kernel)
  have hplain' : ¬ Unicode.HasFinalSigma [] "STRAßE".toList :=
    Unicode.lowercaseText_eq_iff.mp (by decide +kernel)
  obtain ⟨-, -, hitself, hsame⟩ := ignoresCase_iff "Straße"
  exact ⟨hplain, hitself.mpr hplain, hsame "STRAßE" hplain hplain' (by decide) (by decide +kernel)⟩

/-- A literal that ends in a capital sigma does not match itself: its own lowercase form ends in a
final sigma, that of the last character of the input does not. -/
theorem sigma_literal_misses_itself :
    ¬ ∀ (text : String) (c stop : Cursor), (ofLiteral ⟨text, true⟩).matchAt c = some stop ↔
      c.Folds stop text.toList.length (text.toList.flatMap Unicode.lowercase) := by
  intro h
  have hmatch := (h "ΑΣ" _ _).mpr (folds_itself "ΑΣ")
  have hmiss : ((ofLiteral ⟨"ΑΣ", true⟩).matchAt (Cursor.ofText "ΑΣ")).isSome = false := by
    decide +kernel
  rw [hmatch] at hmiss
  cases hmiss

end LiteralMatcher
end Peg
