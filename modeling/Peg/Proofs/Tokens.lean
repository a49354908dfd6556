import Mathlib.Data.List.Forall2
import Peg.Proofs.Cursor
import Peg.Proofs.Spelling

/-! Reading back the tokens that writing puts down: names, literals, classes and code. A reader is
known by what it makes of a text in front of another one. -/
namespace Peg.Notation

variable {α β γ : Type}

/-- A reader that comes through is followed by what is made of its result. -/
theorem run_bind {r : Reader α} {f : α → Reader β} {c c' : Cursor} {a : α}
    (h : r c = .ok (a, c')) : (r >>= f) c = f a c' := by
  change (r c >>= fun p => f p.1 p.2) = _
  rw [h]
  rfl

/-- In front of `rest` the reader reads `cs` and comes to a result with the property. -/
def Reads (r : Reader α) (cs rest : List Char) (P : α → Prop) : Prop :=
  ∀ position, ∃ a position', r ⟨position, cs ++ rest⟩ = .ok (a, ⟨position', rest⟩) ∧ P a

section Reads

variable {r : Reader α} {f : α → Reader β} {cs ds rest : List Char} {P : α → Prop} {Q : β → Prop}

theorem Reads.bind (h : Reads r cs (ds ++ rest) P) (h' : ∀ a, P a → Reads (f a) ds rest Q) :
    Reads (r >>= f) (cs ++ ds) rest Q := by
  intro position
  obtain ⟨a, middle, hr, ha⟩ := h position
  obtain ⟨b, position', hf, hb⟩ := h' a ha middle
  refine ⟨b, position', ?_, hb⟩
  rw [List.append_assoc, run_bind hr, hf]

theorem Reads.bind_end (h : Reads r cs rest P) (h' : ∀ a, P a → Reads (f a) [] rest Q) :
    Reads (r >>= f) cs rest Q := by
  have hb : Reads (r >>= f) (cs ++ []) rest Q := Reads.bind h h'
  rwa [List.append_nil] at hb

/-- A reader may look ahead first. -/
theorem Reads.bind_still (h : Reads r [] (cs ++ rest) P) (h' : ∀ a, P a → Reads (f a) cs rest Q) :
    Reads (r >>= f) cs rest Q :=
  Reads.bind h h'

/-- A result may be changed at the end. -/
theorem Reads.bind_pure {g : α → β} (h : Reads r cs rest P) (hg : ∀ a, P a → Q (g a)) :
    Reads (r >>= fun a => pure (g a)) cs rest Q := by
  intro position
  obtain ⟨a, position', hr, ha⟩ := h position
  exact ⟨g a, position', run_bind hr, hg a ha⟩

theorem Reads.imp {P' : α → Prop} (h : Reads r cs rest P) (hp : ∀ a, P a → P' a) :
    Reads r cs rest P' := by
  intro position
  obtain ⟨a, position', hr, ha⟩ := h position
  exact ⟨a, position', hr, hp a ha⟩

theorem reads_pure {a : α} (ha : P a) : Reads (pure a) [] rest P :=
  fun position => ⟨a, position, rfl, ha⟩

theorem reads_advance (c : Char) : Reads advance [c] rest fun _ => True :=
  fun position => ⟨(), position.advance c, rfl, trivial⟩

theorem reads_eat (c : Char) : Reads (eat c) [c] rest (· = true) :=
  fun position => ⟨true, position.advance c, if_pos rfl, rfl⟩

theorem reads_eat_not {c : Char} (h : rest.head? ≠ some c) : Reads (eat c) [] rest (· = false) :=
  fun position => ⟨false, position, if_neg h, rfl⟩

theorem reads_spanFrom (start : Cursor) : Reads (spanFrom start) [] rest fun _ => True :=
  fun position => ⟨start.spanTo ⟨position, rest⟩, position, rfl, trivial⟩

theorem Reads.get_bind {f : Cursor → Reader β}
    (h : ∀ c, c.rest = cs ++ rest → Reads (f c) cs rest Q) : Reads (get >>= f) cs rest Q :=
  fun position => h ⟨position, cs ++ rest⟩ rfl position

theorem Reads.peek_bind {f : Option Char → Reader β} (h : Reads (f (cs ++ rest).head?) cs rest Q) :
    Reads (peek >>= f) cs rest Q :=
  fun position => h position

end Reads

/-- In front of `rest` a step is taken for each of the items, and none behind them. -/
inductive Collects (step : Reader (Option α)) (P : α → β → Prop) :
    List β → List Char → List Char → Prop where
  | nil (cs rest : List Char) (h : Reads step cs rest (· = none)) : Collects step P [] cs rest
  | cons (item : β) (items : List β) (cs ds rest : List Char) (hne : cs ≠ [])
      (h : Reads step cs (ds ++ rest) fun found => ∃ a, found = some a ∧ P a item)
      (hs : Collects step P items ds rest) : Collects step P (item :: items) (cs ++ ds) rest

theorem Collects.reads {step : Reader (Option α)} {P : α → β → Prop} {items : List β}
    {cs rest : List Char} (h : Collects step P items cs rest) :
    Reads (collect step) cs rest (List.Forall₂ P · items) := by
  -- As every step takes a character, the text is a bound for the number of steps.
  have hwithin (bound : List Char) (hb : cs.length ≤ bound.length) :
      Reads (collectWithin step bound) cs rest (List.Forall₂ P · items) := by
    induction h generalizing bound with
    | nil cs rest h =>
      intro position
      obtain ⟨found, position', hr, rfl⟩ := h position
      refine ⟨[], position', ?_, .nil⟩
      rw [collectWithin, run_bind hr]
      rfl
    | cons item items cs ds rest hne h _ ih =>
      intro position
      obtain ⟨found, middle, hr, a, rfl, ha⟩ := h position
      have hpos : 0 < cs.length := List.length_pos_iff.mpr hne
      rw [List.length_append] at hb
      obtain ⟨b, bound, rfl⟩ := List.exists_cons_of_length_pos (by omega : 0 < bound.length)
      rw [List.length_cons] at hb
      obtain ⟨as, position', hs, has⟩ := ih bound (by omega) middle
      refine ⟨a :: as, position', ?_, .cons ha has⟩
      rw [List.append_assoc, collectWithin, run_bind hr]
      dsimp only
      rw [run_bind hs]
      rfl
  intro position
  refine hwithin (cs ++ rest) ?_ position
  rw [List.length_append]
  omega

/-- A cursor behind characters of its text. -/
theorem skip_append (cs rest : List Char) (position : Position) :
    Cursor.skip cs.length ⟨position, cs ++ rest⟩ = ⟨position.advanceBy cs, rest⟩ := by
  induction cs generalizing position with
  | nil => rfl
  | cons c cs ih => exact ih (position.advance c)

section Names

variable {name : String}

theorem isName_iff : isName name = true ↔
    (∃ c cs, name.toList = c :: cs ∧ isNameStart c = true) ∧
      (∀ c ∈ name.toList, isNamePart c = true) ∧ name ∉ reservedWords := by
  unfold isName
  rw [Bool.and_eq_true, Bool.and_eq_true, List.all_eq_true, Bool.not_eq_true', and_assoc,
    ← Bool.not_eq_true, List.contains_iff_mem]
  refine and_congr_left fun _ => ?_
  cases name.toList with
  | nil => simp
  | cons c cs => simp

theorem exists_cons_of_isName (h : isName name = true) :
    ∃ c cs, name.toList = c :: cs ∧ isNameStart c = true :=
  (isName_iff.mp h).1

/-- A name is read up to where it ends. -/
theorem reads_identifier (h : isName name = true) {rest : List Char}
    (hr : ∀ c, rest.head? = some c → isNamePart c = false) :
    Reads identifier name.toList rest (· = some name) := by
  obtain ⟨⟨c, cs, hc, hstart⟩, hpart, -⟩ := isName_iff.mp h
  have hrest : rest.takeWhile isNamePart = [] := by
    cases rest with
    | nil => rfl
    | cons a rest => rw [List.takeWhile_cons, hr a rfl]; rfl
  have htaken : (name.toList ++ rest).takeWhile isNamePart = name.toList := by
    rw [List.takeWhile_append_of_pos hpart, hrest, List.append_nil]
  intro position
  have hany : (⟨position, name.toList ++ rest⟩ : Cursor).peek.any isNameStart = true := by
    simp only [Cursor.peek, hc, List.cons_append, List.head?_cons, Option.any_some, hstart]
  refine ⟨some name, position.advanceBy name.toList, ?_, rfl⟩
  unfold identifier
  rw [if_pos hany]
  simp only [Cursor.takeWhile, htaken, skip_append, String.ofList_toList]

theorem reads_checkReserved (h : isName name = true) (start stop : Cursor) (rest : List Char) :
    Reads (checkReserved name start stop) [] rest fun _ => True :=
  fun position => ⟨(), position, if_neg (isName_iff.mp h).2.2, trivial⟩

end Names

section Escapes

variable {rest : List Char}

/-- A backslash that does not end a line is no line continuation. -/
theorem reads_skipContinuations (h : rest.head? = some '\\' → rest.tail.head? ≠ some '\n') :
    Reads skipContinuations [] rest fun _ => True := by
  have hstep : Reads lineContinuation [] rest (· = none) := by
    intro position
    refine ⟨none, position, ?_, rfl⟩
    cases rest with
    | nil => rfl
    | cons a rest =>
      refine if_neg ?_
      simp only [Bool.and_eq_true, decide_eq_true_eq]
      exact fun ⟨ha, hb⟩ => h ha hb
  have hc : Collects lineContinuation (fun _ (_ : Unit) => True) [] [] rest :=
    .nil [] rest hstep
  intro position
  obtain ⟨found, position', hr, -⟩ := hc.reads position
  exact ⟨(), position', run_bind hr, trivial⟩

theorem reads_hexEscape (backslash : Cursor) {digits : List Char} {c : Char}
    (h : hexChar? digits = some c) :
    Reads (hexEscape backslash digits.length) digits rest (· = c) := by
  intro position
  refine ⟨c, position.advanceBy digits, ?_, rfl⟩
  have htake : (digits ++ rest).take digits.length = digits := List.take_left
  unfold hexEscape
  simp only [htake, if_pos, h, skip_append]

/-- Two hexadecimal digits write every control character. -/
theorem hexChar?_digits : ∀ n < 160, hexChar? (Hex.digits 2 n) = some (Char.ofNat n) := by
  decide +kernel

/-- What is written behind a backslash, and the characters that it stands for. -/
def escapes : List (Char × Char) :=
  [('n', '\n'), ('r', '\r'), ('t', '\t'), ('\\', '\\'), ('"', '"'), (']', ']'), ('^', '^'),
    ('-', '-')]

theorem reads_escape (fault : Fault) {d c : Char} (h : (d, c) ∈ escapes) :
    Reads (escape fault) ['\\', d] rest (· = c) := by
  refine Reads.get_bind fun backslash _ => ?_
  refine (reads_advance '\\').bind fun _ _ => Reads.peek_bind ?_
  refine (reads_advance d).bind fun _ _ => ?_
  simp only [escapes, List.mem_cons, Prod.mk.injEq, List.not_mem_nil, or_false] at h
  rcases h with ⟨rfl, rfl⟩ | ⟨rfl, rfl⟩ | ⟨rfl, rfl⟩ | ⟨rfl, rfl⟩ | ⟨rfl, rfl⟩ | ⟨rfl, rfl⟩ |
    ⟨rfl, rfl⟩ | ⟨rfl, rfl⟩ <;> exact reads_pure rfl

theorem reads_escape_hex (fault : Fault) {n : Nat} (hn : n < 160) :
    Reads (escape fault) ('\\' :: 'x' :: Hex.digits 2 n) rest (· = Char.ofNat n) := by
  refine Reads.get_bind fun backslash _ => ?_
  refine (reads_advance '\\').bind fun _ _ => Reads.peek_bind ?_
  exact (reads_advance 'x').bind fun _ _ => reads_hexEscape backslash (hexChar?_digits n hn)

variable {special : List Char} {closing : Char} (inEscape elsewhere : Fault)

theorem reads_innerChar_escape {d c : Char} {ds : List Char} (hclosing : closing ≠ '\\')
    (hd : d ≠ '\n') (h : Reads (escape inEscape) ('\\' :: d :: ds) rest (· = c)) :
    Reads (innerChar closing inEscape elsewhere) ('\\' :: d :: ds) rest (· = some c) := by
  have hcontinuation : Reads skipContinuations [] ('\\' :: d :: ds ++ rest) fun _ => True :=
    reads_skipContinuations fun _ hn => hd (Option.some.inj hn)
  refine hcontinuation.bind fun _ _ => Reads.peek_bind ?_
  change Reads (if '\\' = closing then _ else _) _ _ _
  rw [if_neg (Ne.symm hclosing)]
  exact h.bind_pure fun _ ha => congrArg some ha

theorem reads_innerChar_plain {c : Char} (hclosing : c ≠ closing) (hb : c ≠ '\\') (hn : c ≠ '\n') :
    Reads (innerChar closing inEscape elsewhere) [c] rest (· = some c) := by
  have hcontinuation : Reads skipContinuations [] ([c] ++ rest) fun _ => True :=
    reads_skipContinuations fun h => absurd (Option.some.inj h) hb
  refine hcontinuation.bind fun _ _ => Reads.peek_bind ?_
  change Reads (if c = closing then _ else _) _ _ _
  rw [if_neg hclosing, if_neg hb, if_neg hn]
  exact (reads_advance c).bind_pure fun _ _ => rfl

/-- Before the closing character there is nothing more to read. -/
theorem reads_innerChar_closing (hb : closing ≠ '\\') (hr : rest.head? = some closing) :
    Reads (innerChar closing inEscape elsewhere) [] rest (· = none) := by
  have hcontinuation : Reads skipContinuations [] ([] ++ rest) fun _ => True := by
    refine reads_skipContinuations fun h => absurd ?_ hb
    exact Option.some.inj (hr.symm.trans h)
  refine hcontinuation.bind fun _ _ => Reads.peek_bind ?_
  rw [List.nil_append, hr]
  change Reads (if closing = closing then _ else _) _ _ _
  rw [if_pos rfl]
  exact reads_pure rfl

/-- A character that is written is read again. -/
theorem reads_innerChar (hspecial : ∀ c ∈ special, (c, c) ∈ escapes) (hc : closing ∈ special)
    (hb : closing ≠ '\\') (c : Char) :
    Reads (innerChar closing inEscape elsewhere) (escapeChar special c) rest (· = some c) := by
  have hpair {d : Char} (hd : d ≠ '\n') (h : (d, c) ∈ escapes) :
      Reads (innerChar closing inEscape elsewhere) ['\\', d] rest (· = some c) :=
    reads_innerChar_escape inEscape elsewhere hb hd (reads_escape inEscape h)
  unfold escapeChar
  split_ifs with h₁ h₂ h₃ h₄ h₅ h₆
  · exact hpair (by decide) (by rw [h₁]; decide)
  · exact hpair (by decide) (by rw [h₂]; decide)
  · exact hpair (by decide) (by rw [h₃]; decide)
  · exact hpair (by decide) (by rw [h₄]; decide)
  · exact hpair h₁ (hspecial c h₅)
  · have hn : c.toNat < 160 := by
      unfold Unicode.isControl at h₆
      simp only [Bool.or_eq_true, Bool.and_eq_true, decide_eq_true_eq] at h₆
      omega
    have h : Reads (escape inEscape) _ rest _ := reads_escape_hex inEscape hn
    rw [Char.ofNat_toNat] at h
    exact reads_innerChar_escape inEscape elsewhere hb (by decide) h
  · exact reads_innerChar_plain inEscape elsewhere (fun he => h₅ (he ▸ hc)) h₄ h₁

end Escapes

/-- Characters that are written are no text that ends. -/
theorem escapeChar_ne_nil (special : List Char) (c : Char) : escapeChar special c ≠ [] := by
  unfold escapeChar
  split_ifs <;> exact List.cons_ne_nil _ _

/-- What is written of a character begins with no character that is special. -/
theorem head?_escapeChar {special : List Char} {d : Char} (hd : d ∈ special) (hb : d ≠ '\\')
    (c : Char) (rest : List Char) : (escapeChar special c ++ rest).head? ≠ some d := by
  unfold escapeChar
  split_ifs with h₁ h₂ h₃ h₄ h₅ h₆
  case neg => exact fun h => h₅ (Option.some.inj h ▸ hd)
  all_goals exact fun h => hb (Option.some.inj h).symm

theorem toList_quote (text : String) :
    (quote text).toList = '"' :: (text.toList.flatMap (escapeChar ['"']) ++ ['"']) := by
  simp [quote, escapeText]

/-- A literal that is written is read again. -/
theorem reads_stringLiteral (text : String) (rest : List Char) :
    Reads stringLiteral (quote text).toList rest (· = text) := by
  have hchars (inEscape elsewhere : Fault) (cs : List Char) :
      Collects (innerChar '"' inEscape elsewhere) Eq cs (cs.flatMap (escapeChar ['"']))
        (['"'] ++ rest) := by
    -- On the characters, up to the quotation mark, which ends the text as it stands without a
    -- backslash.
    induction cs with
    | nil => exact .nil [] _ (reads_innerChar_closing _ _ (by decide) rfl)
    | cons c cs ih =>
      refine .cons c cs _ _ _ (escapeChar_ne_nil _ c) ?_ ih
      exact (reads_innerChar _ _ (by simp [escapes]) (by simp) (by decide) c).imp
        fun _ ha => ⟨c, ha, rfl⟩
  rw [toList_quote]
  refine Reads.get_bind fun start _ => Reads.peek_bind ?_
  refine (reads_advance '"').bind fun _ _ => ?_
  refine (hchars _ _ text.toList).reads.bind fun chars hchars => ?_
  refine (reads_advance '"').bind_pure fun _ _ => ?_
  rw [List.forall₂_eq_eq_eq] at hchars
  rw [hchars, String.ofList_toList]

section Classes

def classSpecial : List Char := [']', '^', '-']

theorem reads_classChar (opened : Position) (c : Char) (rest : List Char) :
    Reads (classChar opened) (escapeChar classSpecial c) rest (· = some c) :=
  reads_innerChar _ _ (by simp [classSpecial, escapes]) (by simp [classSpecial]) (by decide) c

theorem reads_classPart (opened : Position) {part : ClassPart} (ho : part.isOrdered = true)
    {rest : List Char} (hr : rest.head? ≠ some '-') :
    Reads (classPart opened) part.render rest (· = some [part]) := by
  cases part with
  | single c =>
    refine (reads_classChar opened c rest).bind_end fun found hfound => ?_
    subst hfound
    refine Reads.get_bind fun here hhere => ?_
    have hdash : here.peek ≠ some '-' := by
      rw [Cursor.peek, hhere]
      exact hr
    rw [if_pos (by simp [hdash])]
    exact reads_pure rfl
  | range first last =>
    have hlast (rest : List Char) : (escapeChar classSpecial last ++ rest).head? ≠ some ']' :=
      head?_escapeChar (by decide) (by decide) last rest
    refine (reads_classChar opened first _).bind fun found hfound => ?_
    subst hfound
    refine Reads.get_bind fun here hhere => ?_
    have hdash : here.peek = some '-' := by
      rw [Cursor.peek, hhere]
      rfl
    have hnext : here.next.peek ≠ some ']' := by
      rw [Cursor.next_of_rest hhere]
      exact hlast rest
    rw [if_neg (by simp [hdash, hnext])]
    refine (reads_advance '-').bind fun _ _ => ?_
    refine (reads_classChar opened last rest).bind_end fun found hfound => ?_
    subst hfound
    have hle : ¬ last < first := Char.not_lt.mpr (of_decide_eq_true ho)
    change Reads (if last < first then _ else _) _ _ _
    rw [if_neg hle]
    exact reads_pure rfl

/-- What is written of the parts of a class begins with no special character. -/
theorem head?_parts {d : Char} (hd : d ∈ classSpecial) (hclosing : d ≠ ']') (parts : List ClassPart)
    (rest : List Char) : (parts.flatMap ClassPart.render ++ ']' :: rest).head? ≠ some d := by
  have hbackslash : d ≠ '\\' := fun he => absurd (he ▸ hd) (by decide)
  cases parts with
  | nil => exact fun h => hclosing (Option.some.inj h).symm
  | cons part parts =>
    rw [List.flatMap_cons, List.append_assoc]
    cases part with
    | single c => exact head?_escapeChar hd hbackslash c _
    | range first last =>
      unfold ClassPart.render
      rw [List.append_assoc]
      exact head?_escapeChar hd hbackslash first _

theorem collects_classParts (opened : Position) {parts : List ClassPart}
    (ho : ∀ part ∈ parts, part.isOrdered = true) (rest : List Char) :
    Collects (classPart opened) (fun found part => found = [part]) parts
      (parts.flatMap ClassPart.render) (']' :: rest) := by
  induction parts with
  | nil =>
    have hclosing : Reads (classChar opened) [] (']' :: rest) (· = none) :=
      reads_innerChar_closing _ _ (by decide) rfl
    refine .nil [] _ (hclosing.bind_end fun found hfound => ?_)
    subst hfound
    exact reads_pure rfl
  | cons part parts ih =>
    have hne : part.render ≠ [] := by
      cases part with
      | single c => exact escapeChar_ne_nil _ c
      | range first last => exact List.append_ne_nil_of_left_ne_nil (escapeChar_ne_nil _ first) _
    have hnext := head?_parts (d := '-') (by decide) (by decide) parts rest
    refine .cons part parts _ _ _ hne ?_ (ih fun part hm => ho part (List.mem_cons_of_mem _ hm))
    exact (reads_classPart opened (ho part List.mem_cons_self) hnext).imp fun _ ha => ⟨_, ha, rfl⟩

theorem toList_renderClass (members : CharClass) : members.render.toList =
    '[' :: ((if members.inverted then ['^'] else []) ++ (members.parts.flatMap ClassPart.render ++
      (']' :: if members.ignoreCase then ['i'] else []))) := by
  unfold CharClass.render
  cases members.inverted <;> cases members.ignoreCase <;> simp

/-- An optional mark is read if it is there, and if it is not, none may follow. -/
theorem reads_mark {mark : Char} (present : Bool) {rest : List Char}
    (hr : present = false → rest.head? ≠ some mark) :
    Reads (eat mark) (if present then [mark] else []) rest (· = present) := by
  cases present with
  | true => exact reads_eat mark
  | false => exact reads_eat_not (hr rfl)

/-- A class that is written is read again, unless it is not up to case and an `i` follows. -/
theorem reads_charClass {members : CharClass}
    (ho : ∀ part ∈ members.parts, part.isOrdered = true) {rest : List Char}
    (hr : members.ignoreCase = false → rest.head? ≠ some 'i') :
    Reads charClass members.render.toList rest (· = members) := by
  have hparts (found : List (List ClassPart)) (parts : List ClassPart)
      (h : List.Forall₂ (fun found part => found = [part]) found parts) :
        found.flatten = parts := by
    induction h with
    | nil => rfl
    | cons hp _ ih => rw [hp, List.flatten_cons, ih, List.singleton_append]
  rw [toList_renderClass]
  refine Reads.get_bind fun start _ => ?_
  refine (reads_advance '[').bind fun _ _ => ?_
  refine (reads_mark members.inverted fun _ => ?_).bind fun inverted hinverted => ?_
  · rw [List.append_assoc]
    exact head?_parts (by decide) (by decide) members.parts _
  refine (collects_classParts start.position ho _).reads.bind fun found hfound => ?_
  refine (reads_advance ']').bind fun _ _ => ?_
  refine (reads_mark members.ignoreCase hr).bind_pure fun ignoreCase hcase => ?_
  rw [hparts found _ hfound, hinverted, hcase]

end Classes

section Code

theorem openBlocks_append (depth : Nat) (cs ds : List Char) :
    openBlocks depth (cs ++ ds) = (openBlocks depth cs).bind (openBlocks · ds) := by
  induction cs generalizing depth with
  | nil => rfl
  | cons c cs ih =>
    simp only [List.cons_append, openBlocks]
    split_ifs
    · exact ih (depth + 1)
    · cases depth with
      | zero => rfl
      | succ depth => exact ih depth
    · exact ih depth

/-- Balanced code is passed over on the way to the brace that closes its block. -/
theorem codeLength_append {depth depth' : Nat} {cs : List Char}
    (h : openBlocks depth cs = some depth') (rest : List Char) :
    codeLength depth (cs ++ rest) = (codeLength depth' rest).map (· + cs.length) := by
  induction cs generalizing depth with
  | nil =>
    cases h
    rw [List.nil_append]
    cases codeLength depth' rest <;> rfl
  | cons c cs ih =>
    have hlength (n : Option Nat) :
        (n.map (· + cs.length)).map (· + 1) = n.map (· + (c :: cs).length) := by
      cases n <;> rfl
    simp only [List.cons_append, openBlocks, codeLength] at h ⊢
    split_ifs at h ⊢
    · rw [ih h, hlength]
    · cases depth with
      | zero => cases h
      | succ depth =>
        dsimp only at h ⊢
        rw [ih h, hlength]
    · rw [ih h, hlength]

theorem trimBlank_pad (cs : List Char) :
    Unicode.trimBlank (' ' :: (cs ++ [' '])) = Unicode.trimBlank cs := by
  have hspace : Unicode.isBlank ' ' = true := by decide
  unfold Unicode.trimBlank
  rw [List.dropWhile_cons_of_pos hspace, List.dropWhile_append]
  cases hd : cs.dropWhile Unicode.isBlank with
  | nil =>
    rw [List.isEmpty_nil, if_pos rfl, List.dropWhile_cons_of_pos hspace]
    rfl
  | cons a rest =>
    rw [List.isEmpty_cons, if_neg Bool.false_ne_true, List.reverse_append, List.reverse_singleton,
      List.singleton_append, List.dropWhile_cons_of_pos hspace]

theorem reads_block {inside : List Char} (h : openBlocks 0 inside = some 0) (rest : List Char) :
    Reads codeBlock ('\x7b' :: (inside ++ ['\x7d'])) rest
      (· = String.ofList (Unicode.trimBlank inside)) := by
  intro position
  have hlength : codeLength 0 (inside ++ '\x7d' :: rest) = some inside.length := by
    rw [codeLength_append h]
    exact congrArg some (Nat.zero_add _)
  have hskip := skip_append (inside ++ ['\x7d']) rest (position.advance '\x7b')
  rw [List.length_append, List.append_assoc] at hskip
  have htake : (inside ++ '\x7d' :: rest).take inside.length = inside := List.take_left
  refine ⟨_, (position.advance '\x7b').advanceBy (inside ++ ['\x7d']), ?_, rfl⟩
  unfold codeBlock
  simp only [List.cons_append, List.append_assoc, List.nil_append, Cursor.next, hlength, htake]
  exact congrArg (fun c => Except.ok (_, c)) hskip

/-- Code that is written is read again. -/
theorem reads_codeBlock {code : String} (h : isCode code = true) (rest : List Char) :
    Reads codeBlock (renderCode code).toList rest (· = code) := by
  unfold isCode at h
  rw [Bool.and_eq_true, beq_iff_eq, beq_iff_eq] at h
  obtain ⟨htrim, hblocks⟩ := h
  unfold renderCode
  by_cases he : code.isEmpty = true
  · rw [if_pos he]
    have hcode : code = "" := String.isEmpty_iff.mp he
    have hread := reads_block (rfl : openBlocks 0 [] = some 0) rest
    exact hread.imp fun _ ha => ha.trans hcode.symm
  · rw [if_neg he]
    have hinside : openBlocks 0 (' ' :: (code.toList ++ [' '])) = some 0 := by
      change openBlocks 0 (code.toList ++ [' ']) = some 0
      rw [openBlocks_append, hblocks]
      rfl
    have hlist : ("\x7b " ++ code ++ " \x7d").toList =
        '\x7b' :: ((' ' :: (code.toList ++ [' '])) ++ ['\x7d']) := by
      simp
    rw [hlist]
    refine (reads_block hinside rest).imp fun _ ha => ha.trans ?_
    rw [trimBlank_pad, htrim, String.ofList_toList]

end Code

end Peg.Notation
