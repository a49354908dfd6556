import Mathlib.Data.List.Chain
import Peg.Proofs.LeftRecursion

/-! The search for left recursion is exact. It follows the references that may be reached before
input is consumed, along paths of different rules; so it finds a rule again if one leads back to
itself, and what it reports is a path that does. -/
namespace Peg

namespace Expr

/-- The expression refers to the rule `name`, by the reference with the span `place`, and in no
sequence around this does an element in front of it always consume input. -/
inductive LeadsTo (consumes : Expr → Bool) (name : String) (place : Span) : Expr → Prop where
  | ruleRef : LeadsTo consumes name place (.ruleRef place name)
  | sequence {span front e back} (free : ∀ before ∈ front, consumes before = false)
      (inside : LeadsTo consumes name place e) :
      LeadsTo consumes name place (.sequence span (front ++ e :: back))
  | choice {span alternatives e} (among : e ∈ alternatives)
      (inside : LeadsTo consumes name place e) :
      LeadsTo consumes name place (.choice span alternatives)
  | wrapped {span wrapper body} (inside : LeadsTo consumes name place body) :
      LeadsTo consumes name place (.wrapped span wrapper body)

variable {consumes : Expr → Bool} {name : String} {place : Span}

/-- Of a sequence, the elements are searched up to the first one that always consumes input. -/
theorem mem_leftCallsOfElements {es : List Expr} :
    (name, place) ∈ leftCallsOfElements consumes es ↔ ∃ front e back, es = front ++ e :: back ∧
      (∀ before ∈ front, consumes before = false) ∧ (name, place) ∈ e.leftCalls consumes := by
  induction es with
  | nil =>
    refine ⟨fun h => (nomatch h), fun ⟨front, e, back, he, _⟩ => ?_⟩
    exact absurd he.symm (List.append_ne_nil_of_right_ne_nil front (List.cons_ne_nil e back))
  | cons first es ih =>
    rw [leftCallsOfElements, List.mem_append]
    constructor
    · rintro (hm | hm)
      · exact ⟨[], first, es, rfl, List.forall_mem_nil _, hm⟩
      · split at hm
        · cases hm
        · rename_i hn
          obtain ⟨front, e, back, rfl, hfree, hm⟩ := ih.mp hm
          exact ⟨first :: front, e, back, rfl,
            List.forall_mem_cons.mpr ⟨Bool.eq_false_iff.mpr hn, hfree⟩, hm⟩
    · rintro ⟨front, e, back, he, hfree, hm⟩
      cases front with
      | nil => cases he; exact Or.inl hm
      | cons head front =>
        obtain ⟨rfl, rfl⟩ := List.cons.inj he
        obtain ⟨hhead, hfront⟩ := List.forall_mem_cons.mp hfree
        rw [if_neg (Bool.eq_false_iff.mp hhead)]
        exact Or.inr (ih.mpr ⟨front, e, back, rfl, hfront, hm⟩)

theorem mem_leftCallsOfAlternatives {es : List Expr} :
    (name, place) ∈ leftCallsOfAlternatives consumes es ↔
      ∃ e ∈ es, (name, place) ∈ e.leftCalls consumes := by
  induction es with
  | nil => exact ⟨fun h => (nomatch h), fun ⟨_, hm, _⟩ => (nomatch hm)⟩
  | cons first es ih =>
    rw [leftCallsOfAlternatives, List.mem_append, ih, List.exists_mem_cons_iff]

/-- The search looks at the references to which an expression leads. -/
theorem mem_leftCalls_iff {e : Expr} :
    (name, place) ∈ e.leftCalls consumes ↔ e.LeadsTo consumes name place := by
  induction e using Expr.induct with
  | literal | charClass | any | predicate =>
    constructor
    · intro h
      cases h
    · rintro ⟨⟩
  | ruleRef span called =>
    rw [leftCalls, List.mem_singleton]
    constructor
    · rintro ⟨⟩
      exact .ruleRef
    · rintro ⟨⟩
      rfl
  | sequence span es ih =>
    rw [leftCalls, mem_leftCallsOfElements]
    constructor
    · rintro ⟨front, e, back, rfl, hfree, hm⟩
      exact .sequence hfree
        ((ih e (List.mem_append_right _ List.mem_cons_self)).mp hm)
    · rintro (_ | ⟨hfree, inside⟩)
      exact ⟨_, _, _, rfl, hfree,
        (ih _ (List.mem_append_right _ List.mem_cons_self)).mpr inside⟩
  | choice span es ih =>
    rw [leftCalls, mem_leftCallsOfAlternatives]
    constructor
    · rintro ⟨e, hm, he⟩
      exact .choice hm ((ih e hm).mp he)
    · rintro (_ | _ | ⟨hm, inside⟩)
      exact ⟨_, hm, (ih _ hm).mpr inside⟩
  | wrapped span wrapper body ih =>
    rw [leftCalls, ih]
    refine ⟨.wrapped, fun h => ?_⟩
    cases h with
    | wrapped inside => exact inside

end Expr

namespace Grammar

/-- The rule called `a` calls the rule called `b` first: it leads to it, and there is such a
rule. -/
def CallsFirst (grammar : Grammar) (a b : String) : Prop :=
  (∃ target ∈ grammar.rules, target.name = b) ∧ ∃ found ∈ grammar.rules, found.name = a ∧
    ∃ place, found.expr.LeadsTo grammar.alwaysConsumes b place

variable {grammar : Grammar}

theorem CallsFirst.leftCalls {a b : String} (h : grammar.CallsFirst a b) :
    grammar.LeftCalls (grammar.ruleConsumes grammar.rules.length []) a b := by
  obtain ⟨-, found, hm, hname, place, hleads⟩ := h
  exact ⟨found, hm, hname, List.mem_map.mpr ⟨(b, place), Expr.mem_leftCalls_iff.mpr hleads, rfl⟩⟩

/-- If nothing is found, no rule leads back to itself. -/
theorem not_transGen_of_leftRecursion? (hn : (grammar.rules.map (·.name)).Nodup)
    (h : grammar.leftRecursion? = none) (name : String) :
    ¬ Relation.TransGen grammar.CallsFirst name name := by
  intro ht
  have hfree : ∀ found ∈ grammar.rules, found.name = name → grammar.Free [name] found.expr :=
    fun found hm hname => hname ▸ free_of_leftRecursion? h hm
  exact not_mem_of_transGen hn (ht.lift id fun _ _ hc => hc.leftCalls) hfree
    (List.mem_singleton_self name)

/-- A path of rules, each of which calls the next one first, is closed by the reference `place` in
its last rule, which leads to a rule of the path. -/
structure ClosesAt (grammar : Grammar) (path : List String) (closing : String) (place : Span) :
    Prop where
  start : ∃ first ∈ grammar.rules, path.head? = some first.name
  calls : (path ++ [closing]).IsChain grammar.CallsFirst
  again : closing ∈ path
  reference : ∃ last ∈ grammar.rules, path.getLast? = some last.name ∧
    last.expr.LeadsTo grammar.alwaysConsumes closing place

/-- The rules passed so far, the last one first: each is called first by the one behind it, and
`found` is the last. -/
structure Passed (grammar : Grammar) (path : List String) (found : Rule) : Prop where
  mem : found ∈ grammar.rules
  head : path.head? = some found.name
  names : ∀ name ∈ path, ∃ target ∈ grammar.rules, target.name = name
  calls : path.IsChain fun b a => grammar.CallsFirst a b

theorem Passed.of_mem {found : Rule} (hm : found ∈ grammar.rules) :
    grammar.Passed [found.name] found :=
  ⟨hm, rfl, List.forall_mem_singleton.mpr ⟨found, hm, rfl⟩, .singleton found.name⟩

section Search

variable {path : List String} {found : Rule}

/-- What the last rule calls first is called first by the first name of the path. -/
theorem Passed.isChain_cons (h : grammar.Passed path found) {name : String}
    (hcall : grammar.CallsFirst found.name name) :
    (name :: path).IsChain fun b a => grammar.CallsFirst a b := by
  refine h.calls.cons fun last hlast => ?_
  cases h.head.symm.trans hlast
  exact hcall

theorem Passed.enter (h : grammar.Passed path found) {target : Rule} (hm : target ∈ grammar.rules)
    (hcall : grammar.CallsFirst found.name target.name) :
    grammar.Passed (target.name :: path) target :=
  ⟨hm, rfl, List.forall_mem_cons.mpr ⟨⟨target, hm, rfl⟩, h.names⟩, h.isChain_cons hcall⟩

theorem Passed.close (h : grammar.Passed path found) {closing : String} {place : Span}
    (hm : closing ∈ path) (hleads : found.expr.LeadsTo grammar.alwaysConsumes closing place) :
    grammar.ClosesAt path.reverse closing place := by
  have hcall : grammar.CallsFirst found.name closing :=
    ⟨h.names closing hm, found, h.mem, rfl, place, hleads⟩
  have hne := List.ne_nil_of_mem hm
  obtain ⟨first, hfirst, hname⟩ := h.names (path.getLast hne) (List.getLast_mem hne)
  have hhead : path.reverse.head? = some first.name := by
    rw [List.head?_reverse, List.getLast?_eq_some_getLast hne, hname]
  refine ⟨⟨first, hfirst, hhead⟩, ?_, List.mem_reverse.mpr hm,
    found, h.mem, List.getLast?_reverse.trans h.head, hleads⟩
  rw [← List.reverse_cons, List.isChain_reverse]
  exact h.isChain_cons hcall

/-- The search reports a call that leads back to the path, or goes on in a rule that is new. -/
theorem of_findLeftRecursion {depth : Nat} {e : Expr} {error : GrammarError}
    (h : grammar.findLeftRecursion depth path e = some error) :
    ∃ name place, e.LeadsTo grammar.alwaysConsumes name place ∧
      (name ∈ path ∧ error = ⟨place, .leftRecursion (path.reverse ++ [name])⟩ ∨
        ∃ rest target, depth = rest + 1 ∧ grammar.rule? name = some target ∧
          grammar.findLeftRecursion rest (name :: path) target.expr = some error) := by
  unfold findLeftRecursion at h
  obtain ⟨⟨name, place⟩, hc, hv⟩ := List.exists_of_findSome?_eq_some h
  refine ⟨name, place, Expr.mem_leftCalls_iff.mp hc, ?_⟩
  dsimp only at hv
  split at hv
  · rename_i hm
    rw [List.reverse_cons] at hv
    exact Or.inl ⟨hm, (Option.some.inj hv).symm⟩
  · cases depth with
    | zero => cases hv
    | succ rest =>
      obtain ⟨target, ht, hv⟩ := Option.bind_eq_some_iff.mp hv
      exact Or.inr ⟨rest, target, rfl, ht, hv⟩

/-- What the search reports is a path of calls that leads back to itself. -/
theorem Passed.closesAt {depth : Nat} {error : GrammarError} (hp : grammar.Passed path found)
    (h : grammar.findLeftRecursion depth path found.expr = some error) :
    ∃ walked closing, grammar.ClosesAt walked closing error.span ∧
      error.defect = .leftRecursion (walked ++ [closing]) := by
  -- On how many more rules the search may enter; it does so only behind rules that are passed.
  induction depth generalizing path found with
  | zero =>
    obtain ⟨name, place, hleads, ⟨hm, rfl⟩ | ⟨_, _, hd, -⟩⟩ := of_findLeftRecursion h
    · exact ⟨path.reverse, name, hp.close hm hleads, rfl⟩
    · cases hd
  | succ depth ih =>
    obtain ⟨name, place, hleads, ⟨hm, rfl⟩ | ⟨_, target, ⟨⟩, ht, h⟩⟩ := of_findLeftRecursion h
    · exact ⟨path.reverse, name, hp.close hm hleads, rfl⟩
    · have hmem : target ∈ grammar.rules := List.mem_of_find?_eq_some ht
      have hname := name_of_rule? ht
      subst hname
      exact ih (hp.enter hmem ⟨⟨target, hmem, rfl⟩, found, hp.mem, rfl, place, hleads⟩) h

end Search

/-- The rule to which a path of calls leads back calls itself, through the others. -/
theorem ClosesAt.transGen {path : List String} {closing : String} {place : Span}
    (h : grammar.ClosesAt path closing place) :
    Relation.TransGen grammar.CallsFirst closing closing := by
  obtain ⟨front, back, rfl⟩ := List.append_of_mem h.again
  have hchain := h.calls
  rw [List.append_assoc, List.cons_append] at hchain
  have hcircle := (List.isChain_append.mp hchain).2.1
  obtain ⟨next, rest, hrest⟩ := List.exists_cons_of_ne_nil
    (List.append_ne_nil_of_right_ne_nil back (List.cons_ne_nil closing []))
  rw [hrest, List.isChain_cons_cons] at hcircle
  refine .head' hcircle.1 (List.relationReflTransGen_of_exists_isChain_cons rest hcircle.2 ?_)
  have hlast := List.getLast?_concat (l := back) (a := closing)
  rw [hrest, List.getLast?_eq_some_getLast (List.cons_ne_nil next rest)] at hlast
  exact Option.some.inj hlast

theorem closesAt_of_leftRecursion? {error : GrammarError}
    (h : grammar.leftRecursion? = some error) :
    ∃ path closing, grammar.ClosesAt path closing error.span ∧
      error.defect = .leftRecursion (path ++ [closing]) := by
  obtain ⟨found, hm, hf⟩ := List.exists_of_findSome?_eq_some h
  exact (Passed.of_mem hm).closesAt hf

/-- The search finds something if and only if a rule leads back to itself. -/
theorem leftRecursion?_eq_some_iff (hn : (grammar.rules.map (·.name)).Nodup) :
    (∃ error, grammar.leftRecursion? = some error) ↔
      ∃ rule ∈ grammar.rules, Relation.TransGen grammar.CallsFirst rule.name rule.name := by
  constructor
  · rintro ⟨error, he⟩
    obtain ⟨path, closing, hcloses, -⟩ := closesAt_of_leftRecursion? he
    have hcircle := hcloses.transGen
    obtain ⟨_, -, ⟨rule, hm, rfl⟩, -⟩ := Relation.TransGen.tail'_iff.mp hcircle
    exact ⟨rule, hm, hcircle⟩
  · rintro ⟨rule, -, ht⟩
    cases h : grammar.leftRecursion? with
    | none => exact absurd ht (not_transGen_of_leftRecursion? hn h rule.name)
    | some error => exact ⟨error, rfl⟩

theorem run_leftRecursion (options : Options) (notes : Array Note) (grammar : Grammar) :
    ((Pass.leftRecursion.run options grammar).run.run notes).1 =
      match grammar.leftRecursion? with
      | some error => .error error
      | none => .ok grammar := by
  change ((refuse grammar.leftRecursion? >>= fun _ => pure grammar : Compiler Grammar).run.run
    notes).1 = _
  cases grammar.leftRecursion? <;> rfl

/-- The pass against left recursion fails if and only if a rule leads back to itself by calls that
come first; and then its message names a path of such calls that does, and is about the reference by
which it does. -/
theorem finds_left_recursion_exactly (hn : (grammar.rules.map (·.name)).Nodup) (options : Options)
    (notes : Array Note) :
    let result := ((Pass.leftRecursion.run options grammar).run.run notes).1
    ((∃ error, result = .error error) ↔
      ∃ rule ∈ grammar.rules, Relation.TransGen grammar.CallsFirst rule.name rule.name) ∧
    ∀ error, result = .error error →
      ∃ path closing, grammar.ClosesAt path closing error.span ∧
        error.message = "Possible infinite loop when parsing (left recursion: "
          ++ " -> ".intercalate (path ++ [closing]) ++ ")." := by
  intro result
  have hresult : ∀ error, result = .error error ↔ grammar.leftRecursion? = some error := by
    intro error
    rw [show result = _ from run_leftRecursion options notes grammar]
    cases grammar.leftRecursion? with
    | none => exact ⟨fun h => (nomatch h), fun h => (nomatch h)⟩
    | some found =>
      exact ⟨fun h => congrArg some (Except.error.inj h),
        fun h => congrArg Except.error (Option.some.inj h)⟩
  simp only [hresult]
  refine ⟨leftRecursion?_eq_some_iff hn, fun error he => ?_⟩
  obtain ⟨path, closing, hcloses, hdefect⟩ := closesAt_of_leftRecursion? he
  refine ⟨path, closing, hcloses, ?_⟩
  rw [GrammarError.message, hdefect]
  rfl

/-- Three rules that go in a circle: `a = "x"? b`, `b = c` and `c = &"y" a`. -/
def circularGrammar : Grammar where
  initializer := none
  rules := [
    ⟨"a", .sequence .none [.wrapped .none .optional (.literal .none ⟨"x", false⟩),
      .ruleRef .none "b"], .none⟩,
    ⟨"b", .ruleRef .none "c", .none⟩,
    ⟨"c", .sequence .none [.wrapped .none .followedBy (.literal .none ⟨"y", false⟩),
      .ruleRef .none "a"], .none⟩]
  span := .none

/-- The circle is found from its first rule. -/
theorem finds_left_recursion_exactly_circular :
    (circularGrammar.rules.map (·.name)).Nodup ∧
    (∃ rule ∈ circularGrammar.rules,
      Relation.TransGen circularGrammar.CallsFirst rule.name rule.name) ∧
    ∃ path closing, circularGrammar.ClosesAt path closing .none ∧
      "Possible infinite loop when parsing (left recursion: a -> b -> c -> a)." =
        "Possible infinite loop when parsing (left recursion: "
          ++ " -> ".intercalate (path ++ [closing]) ++ ")." := by
  have hn : (circularGrammar.rules.map (·.name)).Nodup := by decide
  obtain ⟨hiff, hpath⟩ := finds_left_recursion_exactly hn {} #[]
  have hresult : ((Pass.leftRecursion.run {} circularGrammar).run.run #[]).1 =
      .error ⟨.none, .leftRecursion ["a", "b", "c", "a"]⟩ := by
    have hfound : circularGrammar.leftRecursion? =
        some ⟨.none, .leftRecursion ["a", "b", "c", "a"]⟩ := by decide +kernel
    rw [run_leftRecursion, hfound]
  exact ⟨hn, hiff.mp ⟨_, hresult⟩, hpath _ hresult⟩

end Grammar
end Peg
