import Peg.Proofs.Caching

/-! Grammars without code. Compilation does not bring code in, and a program without code does the
same whoever its host is: what is derived with one host is derived with every other. -/
namespace Peg

variable {σ α ε : Type}

namespace Expr

mutual

def codeFree : Expr → Bool
  | literal .. | charClass .. | any _ | ruleRef .. => true
  | predicate .. => false
  | sequence _ elements => allCodeFree elements
  | choice _ alternatives => allCodeFree alternatives
  | wrapped _ wrapper body =>
    match wrapper with
    | .action _ => false
    | _ => body.codeFree

def allCodeFree : List Expr → Bool
  | [] => true
  | e :: es => e.codeFree && allCodeFree es

end

theorem allCodeFree_iff {es : List Expr} : allCodeFree es = true ↔ ∀ e ∈ es, e.codeFree = true := by
  induction es with
  | nil => exact ⟨fun _ e hm => (nomatch hm), fun _ => rfl⟩
  | cons e es ih => rw [allCodeFree, Bool.and_eq_true, ih, List.forall_mem_cons]

theorem allCodeFree_rebuildAll {f : Expr → Expr} {es : List Expr}
    (he : ∀ e ∈ es, e.codeFree = true → (e.rebuild f).codeFree = true)
    (h : allCodeFree es = true) : allCodeFree (rebuildAll f es) = true := by
  induction es with
  | nil => rfl
  | cons e es ih =>
    rw [allCodeFree, Bool.and_eq_true] at h
    rw [rebuildAll, allCodeFree, Bool.and_eq_true]
    exact ⟨he e List.mem_cons_self h.1, ih (fun e hm => he e (List.mem_cons_of_mem _ hm)) h.2⟩

theorem codeFree_rebuild {f : Expr → Expr} (hf : ∀ e, e.codeFree = true → (f e).codeFree = true)
    {e : Expr} (h : e.codeFree = true) : (e.rebuild f).codeFree = true := by
  induction e using Expr.induct with
  | literal | charClass | any | ruleRef | predicate =>
    rw [rebuild]
    exact hf _ h
    all_goals nofun
  | sequence span elements ih =>
    rw [rebuild]
    exact hf _ (allCodeFree_rebuildAll ih h)
  | choice span alternatives ih =>
    rw [rebuild]
    exact hf _ (allCodeFree_rebuildAll ih h)
  | wrapped span wrapper body ih =>
    rw [rebuild]
    refine hf _ ?_
    cases wrapper with
    | action code => cases h
    | _ => exact ih h

theorem codeFree_redirectRef (old new : String) {e : Expr} (h : e.codeFree = true) :
    (redirectRef old new e).codeFree = true := by
  cases e <;> exact h

theorem codeFree_simplifyRoot (flattenChoices : Bool) {e : Expr} (h : e.codeFree = true) :
    (simplifyRoot flattenChoices e).codeFree = true := by
  unfold simplifyRoot
  split
  · split
    · exact h
    · exact h
  · rename_i span name body
    change ((body.asNamed?.map (·.2)).getD body).codeFree = true
    unfold asNamed?
    split
    · exact h
    · exact h
  · rename_i span alternatives
    have ha := allCodeFree_iff.mp h
    cases flattenChoices with
    | false => exact h
    | true =>
      refine allCodeFree_iff.mpr fun e hm => ?_
      obtain ⟨inner, hi, he⟩ := List.mem_flatMap.mp hm
      unfold flattenChoice at he
      split at he
      · exact allCodeFree_iff.mp (ha _ hi) e he
      · rw [List.mem_singleton] at he
        exact he ▸ ha inner hi
  · exact h

end Expr

structure Grammar.CodeFree (grammar : Grammar) : Prop where
  initializer : grammar.initializer = none
  rules : ∀ rule ∈ grammar.rules, rule.expr.codeFree = true

namespace Grammar

theorem codeFree_peekGrammar : peekGrammar.CodeFree :=
  ⟨rfl, by decide⟩

theorem codeFree_rebuild {f : Expr → Expr} (hf : ∀ e, e.codeFree = true → (f e).codeFree = true)
    {grammar : Grammar} (h : grammar.CodeFree) : (grammar.rebuild f).CodeFree := by
  refine ⟨h.initializer, fun rule hm => ?_⟩
  obtain ⟨found, hr, rfl⟩ := List.mem_map.mp hm
  exact Expr.codeFree_rebuild hf (h.rules found hr)

/-- Passes bring no code in. -/
theorem codeFree_of_leaves {options : Options} {passes : List Pass} {grammar left : Grammar}
    (hl : grammar.Leaves passes options left) (h : grammar.CodeFree) : left.CodeFree := by
  refine leaves_preserves hl h (fun grammar names h => ?_) fun grammar flattenChoices h =>
    codeFree_rebuild (fun e he => Expr.codeFree_simplifyRoot flattenChoices he) h
  refine removeProxies_preserves names (fun grammar _ rule target _ _ h => ?_) ?_ h
  · exact codeFree_rebuild (fun e he => Expr.codeFree_redirectRef rule.name target he) h
  · exact fun grammar rules hs h => ⟨h.initializer, fun rule hm => h.rules rule (hs.subset hm)⟩

end Grammar

namespace Node

mutual

def codeFree : Node → Bool
  | literal .. | charClass .. | any _ | ruleRef _ => true
  | predicate .. => false
  | sequence nodes | choice nodes => allCodeFree nodes
  | wrapped operator body =>
    match operator with
    | .action _ => false
    | _ => body.codeFree

def allCodeFree : List Node → Bool
  | [] => true
  | node :: nodes => node.codeFree && allCodeFree nodes

end

theorem allCodeFree_iff {nodes : List Node} :
    allCodeFree nodes = true ↔ ∀ node ∈ nodes, node.codeFree = true := by
  induction nodes with
  | nil => exact ⟨fun _ node hm => (nomatch hm), fun _ => rfl⟩
  | cons node nodes ih => rw [allCodeFree, Bool.and_eq_true, ih, List.forall_mem_cons]

end Node

structure Program.CodeFree (program : Program) : Prop where
  initializer : program.initializer = none
  rules : ∀ (id : RuleId) (rule : CompiledRule), program.rules[id]? = some rule →
    rule.node.codeFree = true

theorem Expr.Becomes.codeFree {ruleIndex : String → Option RuleId} {e : Expr} {node : Node}
    (hb : e.Becomes ruleIndex node) (h : e.codeFree = true) : node.codeFree = true := by
  induction hb using Becomes.induct with
  | literal | charClass | any | ruleRef => rfl
  | predicate => cases h
  | sequence span elements nodes _ ih | choice span elements nodes _ ih =>
    refine Node.allCodeFree_iff.mpr fun node hm => ?_
    obtain ⟨e, he, -, hnode⟩ := exists_of_forall₂ ih hm
    exact hnode (Expr.allCodeFree_iff.mp h e he)
  | wrapped span wrapper operator body node hw _ ih =>
    cases hw with
    | action code => cases h
    | _ =>
      have hn := ih h
      exact hn

theorem Grammar.Becomes.codeFree {grammar : Grammar} {options : Options} {program : Program}
    (hb : grammar.Becomes options program) (h : grammar.CodeFree) : program.CodeFree := by
  refine ⟨?_, fun id rule hr => ?_⟩
  · rw [hb.initializer, h.initializer]
    rfl
  · have hmem : rule ∈ program.rules.toList := Array.mem_toList_iff.mpr (Array.mem_of_getElem? hr)
    obtain ⟨source, hs, -, he⟩ := exists_of_forall₂ hb.rules hmem
    exact he.codeFree (h.rules source hs)

/-- What is derived without code is derived with every host. -/
theorem Derives.swap_host {rules : Array CompiledRule} {host : Host σ α ε}
    (hrules : ∀ (id : RuleId) (rule : CompiledRule), rules[id]? = some rule →
      rule.node.codeFree = true)
    (host' : Host σ α ε) {d : Nat} {node : Node} {c : Cursor} {env : Scope α} {h h' : σ}
    {v : Verdict α ε} {log : List (Event α)} (hd : Derives rules host d node c env h v log h')
    (hn : node.codeFree = true) : Derives rules host' d node c env h v log h' := by
  induction hd with
  | literal hm => exact .literal hm
  | literal_missed hm => exact .literal_missed hm
  | charClass hp ha => exact .charClass hp ha
  | charClass_missed ha => exact .charClass_missed ha
  | any hp => exact .any hp
  | any_missed hp => exact .any_missed hp
  | ruleRef hr body ih => exact .ruleRef hr (ih (hrules _ _ hr))
  | predicate | predicate_error | action | action_error | action_failed | action_aborted => cases hn
  | sequence_nil => exact .sequence_nil
  | sequence_cons first rest ihf ihr =>
    obtain ⟨hf, hr⟩ := (Bool.and_eq_true _ _).mp hn
    exact .sequence_cons (ihf hf) (ihr hr)
  | sequence_failed first ih => exact .sequence_failed (ih ((Bool.and_eq_true _ _).mp hn).1)
  | sequence_aborted first ih => exact .sequence_aborted (ih ((Bool.and_eq_true _ _).mp hn).1)
  | choice_nil => exact .choice_nil
  | choice_matched first ih => exact .choice_matched (ih ((Bool.and_eq_true _ _).mp hn).1)
  | choice_cons first rest ihf ihr =>
    obtain ⟨hf, hr⟩ := (Bool.and_eq_true _ _).mp hn
    exact .choice_cons (ihf hf) (ihr hr)
  | choice_aborted first ih => exact .choice_aborted (ih ((Bool.and_eq_true _ _).mp hn).1)
  | labeled inner ih => exact .labeled (ih hn)
  | named_failed inner ih => exact .named_failed (ih hn)
  | named inner hv ih => exact .named (ih hn) hv
  | text inner ih => exact .text (ih hn)
  | optional inner ih => exact .optional (ih hn)
  | zeroOrMore_done inner ih => exact .zeroOrMore_done (ih hn)
  | zeroOrMore_empty inner ih => exact .zeroOrMore_empty (ih hn)
  | zeroOrMore_round inner hs rest ihi ihr => exact .zeroOrMore_round (ihi hn) hs (ihr hn)
  | zeroOrMore_aborted inner ih => exact .zeroOrMore_aborted (ih hn)
  | oneOrMore rounds ih => exact .oneOrMore (ih hn)
  | group inner ih => exact .group (ih hn)
  | followedBy inner ih => exact .followedBy (ih hn)
  | notFollowedBy inner ih => exact .notFollowedBy (ih hn)

namespace Node

variable {host host' : Host σ α ε} {call : RuleId → Matcher σ α ε}

theorem run_row_swap_host {nodes : List Node}
    (hn : ∀ node ∈ nodes, node.codeFree = true → node.run host call = node.run host' call)
    (h : allCodeFree nodes = true) :
    runSequence host call nodes = runSequence host' call nodes ∧
      runChoice host call nodes = runChoice host' call nodes := by
  induction nodes with
  | nil => exact ⟨rfl, rfl⟩
  | cons node nodes ih =>
    obtain ⟨hnode, hnodes⟩ := List.forall_mem_cons.mp (allCodeFree_iff.mp h)
    obtain ⟨hfirst, hothers⟩ := List.forall_mem_cons.mp hn
    obtain ⟨hsequence, hchoice⟩ := ih hothers (allCodeFree_iff.mpr hnodes)
    constructor
    · funext s
      rw [runSequence, runSequence, hfirst hnode, hsequence]
    · funext s
      rw [runChoice, runChoice, hfirst hnode, hchoice]

/-- Without code, the host has no say. -/
theorem run_swap_host {node : Node} (h : node.codeFree = true) :
    node.run host call = node.run host' call := by
  induction node using Node.induct with
  | literal | charClass | any | ruleRef => rw [run, run]
  | predicate => cases h
  | sequence nodes ih => rw [run, run, (run_row_swap_host ih h).1]
  | choice nodes ih => rw [run, run, (run_row_swap_host ih h).2]
  | wrapped operator body ih =>
    rw [run, run]
    cases operator with
    | action code => cases h
    | _ => rw [ih h]; rfl

end Node

namespace Program

variable {program : Program} {host : Host σ α ε}

theorem invoke_swap_host (h : program.CodeFree) (host' : Host σ α ε) (limit depth : Nat) :
    program.invoke host limit depth = program.invoke host' limit depth := by
  induction depth with
  | zero => rfl
  | succ depth ih =>
    funext id s
    cases hr : program.rules[id]? with
    | none => rw [invoke_unknown program host limit hr, invoke_unknown program host' limit hr]
    | some rule =>
      have hn : rule.node.run host (program.invoke host' limit depth) =
          rule.node.run host' (program.invoke host' limit depth) :=
        Node.run_swap_host (h.rules id rule hr)
      simp only [invoke, evaluate, enter, hr, ih, hn]

theorem runFrom_swap_host (h : program.CodeFree) (host' : Host σ α ε) (maxDepth : Nat)
    (start : RuleId) (memory : σ) (input : String) :
    program.runFrom host maxDepth start (.initial input memory) =
      program.runFrom host' maxDepth start (.initial input memory) := by
  rw [runFrom_plain h.initializer, runFrom_plain h.initializer, invoke_swap_host h host']

end Program
end Peg
