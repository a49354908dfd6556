import Peg.Proofs.Placement
import Peg.Proofs.Written

/-! Escaping is undone by scanning. Wherever literals and classes stand in a text, what is written
of them is read back and not a character more. For literals this holds always. For classes it holds
if no range has its ends in the wrong order and no `i` follows that would be taken for a part of
them, and in no other case. -/
namespace Peg

namespace CharClass

def upToCase (members : CharClass) : CharClass := { members with ignoreCase := true }

/-- What is written of a class is also written of the class up to case, with an `i` behind it. -/
theorem toList_render_upToCase {members : CharClass} (h : members.ignoreCase = false)
    (rest : List Char) :
    members.upToCase.render.toList ++ rest = members.render.toList ++ 'i' :: rest := by
  rw [Notation.toList_renderClass, Notation.toList_renderClass, h]
  simp only [List.cons_append, List.append_assoc]
  rfl

end CharClass

namespace Notation

variable {α : Type}

/-- A reader that only moves forward stops right behind what it reads. -/
theorem Reads.run_eq {r : Reader α} {cs rest : List Char} {a : α} (h : Reads r cs rest (· = a))
    (hr : ∀ c, Lands c r c fun _ stop => c.next.Reaches stop) (position : Position) :
    r ⟨position, cs ++ rest⟩ = .ok (a, ⟨position.advanceBy cs, rest⟩) := by
  obtain ⟨_, position', hread, rfl⟩ := h position
  have hstop : Cursor.Reaches ⟨position, cs ++ rest⟩ ⟨position', rest⟩ := by
    have hlands := hr ⟨position, cs ++ rest⟩
    unfold Lands at hlands
    rw [hread] at hlands
    exact Cursor.reaches_trans (Cursor.reaches_next _) hlands
  have hbehind : Cursor.Reaches ⟨position, cs ++ rest⟩ ⟨position.advanceBy cs, rest⟩ :=
    ⟨cs.length, (skip_append cs rest position).symm⟩
  rw [hread, Cursor.eq_of_rest_eq hstop hbehind rfl]

section

variable (position : Position) (rest : List Char)

theorem run_stringLiteral (text : String) :
    stringLiteral ⟨position, (quote text).toList ++ rest⟩ =
      .ok (text, ⟨position.advanceBy (quote text).toList, rest⟩) :=
  (reads_stringLiteral text rest).run_eq (fun c => lands_stringLiteral c.reaches_refl) position

variable {rest} {members : CharClass}

theorem run_charClass (ho : ∀ part ∈ members.parts, part.isOrdered = true)
    (hr : members.ignoreCase = false → rest.head? ≠ some 'i') :
    charClass ⟨position, members.render.toList ++ rest⟩ =
      .ok (members, ⟨position.advanceBy members.render.toList, rest⟩) :=
  (reads_charClass ho hr).run_eq (fun c => lands_charClass c.reaches_refl) position

/-- Nothing else is needed for a class to be read back. -/
theorem run_charClass_iff : charClass ⟨position, members.render.toList ++ rest⟩ =
      .ok (members, ⟨position.advanceBy members.render.toList, rest⟩) ↔
    (∀ part ∈ members.parts, part.isOrdered = true) ∧
      (members.ignoreCase = false → rest.head? ≠ some 'i') := by
  refine ⟨fun hread => ?_, fun h => run_charClass position h.1 h.2⟩
  have hordered : ∀ part ∈ members.parts, part.isOrdered = true := gives_charClass _ _ _ hread
  refine ⟨hordered, fun hcase hhead => ?_⟩
  obtain ⟨rest', rfl⟩ := List.head?_eq_some_iff.mp hhead
  have hother : charClass ⟨position, members.upToCase.render.toList ++ rest'⟩ =
      .ok (members.upToCase, ⟨position.advanceBy members.upToCase.render.toList, rest'⟩) :=
    run_charClass position hordered nofun
  rw [CharClass.toList_render_upToCase hcase, hread] at hother
  have hsame : members = members.upToCase := congrArg Prod.fst (Except.ok.inj hother)
  rw [hsame] at hcase
  cases hcase

end

/-- Scanning undoes escaping, at any place of a text and whatever follows there. A text that has
been quoted is read back, and the cursor stops right behind the closing quote. The parts and the
marks of a class are read back, and the cursor stops right behind the class, exactly if the ends of
all ranges are in order and no `i` follows a class that is not up to case. -/
theorem escapes_read_back (position : Position) (rest : List Char) :
    (∀ text : String, stringLiteral ⟨position, (quote text).toList ++ rest⟩ =
      .ok (text, ⟨position.advanceBy (quote text).toList, rest⟩)) ∧
    ∀ members : CharClass, charClass ⟨position, members.render.toList ++ rest⟩ =
        .ok (members, ⟨position.advanceBy members.render.toList, rest⟩) ↔
      (∀ part ∈ members.parts, part.isOrdered = true) ∧
        (members.ignoreCase = false → rest.head? ≠ some 'i') :=
  ⟨fun text => run_stringLiteral position rest text, fun _ => run_charClass_iff position⟩

/-- A range up to a dash and one from a dash to a closing bracket, and between them a caret. -/
def dashedClass : CharClass := ⟨[.range '\t' '-', .single '^', .range '-' ']'], true, true⟩

/-- The class stands in front of an `i` and a dash, which are left there. The literal stands in
front of another quote, and the NUL in it in front of a digit. The class `[^\-]`, which is not up
to case, cannot stand in front of an `i`. -/
theorem escapes_read_back_dashes :
    (∀ part ∈ dashedClass.parts, part.isOrdered = true) ∧
    charClass (.ofText "[^\\t-\\-\\^\\--\\]]ii-]") =
      .ok (dashedClass, ⟨⟨16, 1, 17⟩, ['i', '-', ']']⟩) ∧
    stringLiteral (.ofText "\"\\\"\\\\n\\n\\x000\"\"") =
      .ok ("\"\\n\n\x000", ⟨⟨14, 1, 15⟩, ['"']⟩) ∧
    charClass (.ofText "[^\\-]i") ≠
      .ok (⟨[.single '-'], true, false⟩, ⟨⟨5, 1, 6⟩, ['i']⟩) := by
  have hordered : ∀ part ∈ dashedClass.parts, part.isOrdered = true := by decide
  have hclass := ((escapes_read_back .start ['i', '-', ']']).2 dashedClass).mpr ⟨hordered, nofun⟩
  have hliteral := (escapes_read_back .start ['"']).1 "\"\\n\n\x000"
  refine ⟨hordered, hclass, hliteral, fun hread => ?_⟩
  have hmark := ((escapes_read_back .start ['i']).2 ⟨[.single '-'], true, false⟩).mp hread
  exact hmark.2 rfl rfl

end Notation
end Peg
