import Peg.Proofs.Mimicry

/-! Grammars whose rules do the same rule by rule. Their programs parse every input to the same
result, with the same events and calls, however the rules are numbered. -/
namespace Peg

variable {σ α ε : Type}

namespace Grammar

variable {grammar : Grammar} {name : String} {id : RuleId}

theorem rule?_of_ruleIndex? (h : grammar.ruleIndex? name = some id) :
    ∃ rule, grammar.rules[id]? = some rule ∧ rule.name = name ∧ grammar.rule? name = some rule := by
  obtain ⟨hlt, hname, hfirst⟩ := List.findIdx?_eq_some_iff_getElem.mp h
  refine ⟨grammar.rules[id], List.getElem?_eq_getElem hlt, beq_iff_eq.mp hname, ?_⟩
  refine List.find?_eq_some_iff_getElem.mpr ⟨hname, id, hlt, rfl, fun j hj => ?_⟩
  have hj' := hfirst j hj
  simpa using hj'

theorem ruleIndex?_of_rule? {rule : Rule} (h : grammar.rule? name = some rule) :
    ∃ id, grammar.ruleIndex? name = some id ∧ grammar.rules[id]? = some rule := by
  obtain ⟨hname, id, hlt, rfl, hfirst⟩ := List.find?_eq_some_iff_getElem.mp h
  refine ⟨id, List.findIdx?_eq_some_iff_getElem.mpr ⟨hlt, hname, fun j hj => ?_⟩,
    List.getElem?_eq_getElem hlt⟩
  have hj' := hfirst j hj
  simpa using hj'

/-- Different names have different indices. -/
theorem ruleIndex?_inj {name' : String} (h : grammar.ruleIndex? name = some id)
    (h' : grammar.ruleIndex? name' = some id) : name = name' := by
  obtain ⟨rule, hr, rfl, -⟩ := rule?_of_ruleIndex? h
  obtain ⟨rule', hr', rfl, -⟩ := rule?_of_ruleIndex? h'
  cases hr.symm.trans hr'
  rfl

/-- The rule that a name is resolved to, in the grammar and in its program. -/
theorem Denotes.exists_found {options : Options} {program : Program}
    (h : grammar.Denotes options program) (hi : grammar.ruleIndex? name = some id) :
    ∃ rule found, grammar.rule? name = some rule ∧ program.rules[id]? = some found ∧
      found.name = name ∧ rule.expr.Denotes grammar.ruleIndex? (options.optimize == .speed)
        program.expectations found.node := by
  obtain ⟨rule, hr, rfl, hrule⟩ := rule?_of_ruleIndex? hi
  obtain ⟨hlt, rfl⟩ := List.getElem?_eq_some_iff.mp hr
  have hl := h.rules.length_eq
  rw [Array.length_toList] at hl
  have hlt' : id < program.rules.size := hl ▸ hlt
  obtain ⟨hname, hd⟩ := h.rules.get hlt (by rw [Array.length_toList]; exact hlt')
  exact ⟨_, program.rules[id], hrule, Array.getElem?_eq_getElem hlt', hname, hd⟩

/-- Parsing may start from a name if that is among the start rules. -/
theorem Denotes.startRule?_eq {options : Options} {program : Program}
    (h : grammar.Denotes options program) (name : String) : program.startRule? name =
      if name ∈ options.startRules grammar.firstRule? then grammar.ruleIndex? name else none := by
  have hs := h.startRules
  unfold Program.startRule?
  generalize options.startRules grammar.firstRule? = names at hs ⊢
  generalize program.startRules = ids at hs ⊢
  induction hs with
  | nil => rfl
  | @cons first id names ids hi _ ih =>
    obtain ⟨rule, found, -, hf, hname, -⟩ := h.exists_found hi
    have hfirst : program.ruleName? id = some first := by
      rw [Program.ruleName?, hf, Option.map_some, hname]
    by_cases he : first = name
    · have hb : (program.ruleName? id == some name) = true := by rw [hfirst, he, beq_self_eq_true]
      rw [List.find?_cons, hb, if_pos (List.mem_cons.mpr (Or.inl he.symm)), ← he, hi]
    · have hb : (program.ruleName? id == some name) = false := by
        rw [hfirst, beq_eq_false_iff_ne]
        exact fun hs => he (Option.some.inj hs)
      have hm : name ∈ first :: names ↔ name ∈ names := by
        rw [List.mem_cons]
        exact ⟨fun hm => hm.resolve_left (Ne.symm he), Or.inr⟩
      rw [List.find?_cons, hb]
      dsimp only
      rw [ih]
      simp only [hm]

end Grammar

/-- The name of the rule from which to start, if parsing may start from `names`. -/
def startName (names : List String) : Option String → Except String String
  | some name => if name ∈ names then .ok name else .error name
  | none =>
    match names with
    | name :: _ => .ok name
    | [] => .error ""

namespace Grammar

variable {grammar : Grammar} {options : Options} {program : Program} {startRule : Option String}

theorem Denotes.ruleIndex?_of_startRule (h : grammar.Denotes options program) {name : String}
    (hn : name ∈ options.startRules grammar.firstRule?) :
    ∃ id, grammar.ruleIndex? name = some id := by
  obtain ⟨id, -, hi⟩ := exists_of_forall₂ h.startRules.flip hn
  exact ⟨id, hi⟩

theorem Denotes.findStart_of_error (h : grammar.Denotes options program) {name' : String}
    (he : startName (options.startRules grammar.firstRule?) startRule = .error name') :
    program.findStart startRule = .error name' := by
  cases startRule with
  | some name =>
    dsimp only [startName] at he
    split at he
    · cases he
    · rename_i hn
      cases he
      simp only [Program.findStart, h.startRule?_eq, if_neg hn]
  | none =>
    have hs := h.startRules
    cases hn : options.startRules grammar.firstRule? with
    | nil =>
      rw [hn] at he hs
      cases he
      have hnil : program.startRules = [] := List.forall₂_nil_left_iff.mp hs
      simp only [Program.findStart, hnil]
    | cons name names =>
      rw [hn] at he
      cases he

theorem Denotes.findStart_of_ok (h : grammar.Denotes options program) {name : String}
    (hn : startName (options.startRules grammar.firstRule?) startRule = .ok name) :
    ∃ id, grammar.ruleIndex? name = some id ∧ program.findStart startRule = .ok id := by
  cases startRule with
  | some name' =>
    dsimp only [startName] at hn
    split at hn
    · rename_i hm
      cases hn
      obtain ⟨id, hi⟩ := h.ruleIndex?_of_startRule hm
      exact ⟨id, hi, by simp only [Program.findStart, h.startRule?_eq, if_pos hm, hi]⟩
    · cases hn
  | none =>
    have hs := h.startRules
    cases hnames : options.startRules grammar.firstRule? with
    | nil =>
      rw [hnames] at hn
      cases hn
    | cons first names =>
      rw [hnames] at hn hs
      cases hn
      obtain ⟨id, ids, hi, -, hids⟩ := List.forall₂_cons_left_iff.mp hs
      exact ⟨id, hi, by simp only [Program.findStart, hids]⟩

/-- The rules of the second grammar do what those of the first one do that have their names, and
parsing starts from the same. -/
structure Mirrors (options : Options) (grammar grammar' : Grammar) : Prop where
  rules : ∀ (name : String) (rule' : Rule), grammar'.rule? name = some rule' →
    ∃ rule, grammar.rule? name = some rule ∧ rule.expr.Mimics Eq rule'.expr
  startRules : options.startRules grammar'.firstRule? = options.startRules grammar.firstRule?
  initializer : grammar'.initializer.map (·.code) = grammar.initializer.map (·.code)

section Names

variable {grammar' : Grammar}

theorem ruleIndex?_of_names (h : grammar'.rules.map (·.name) = grammar.rules.map (·.name)) :
    grammar'.ruleIndex? = grammar.ruleIndex? := by
  funext name
  have hindex (g : Grammar) :
      g.ruleIndex? name = (g.rules.map (·.name)).findIdx? (· == name) := by
    unfold ruleIndex?
    rw [List.findIdx?_map]
    rfl
  rw [hindex, hindex, h]

theorem firstRule?_of_names (h : grammar'.rules.map (·.name) = grammar.rules.map (·.name)) :
    grammar'.firstRule? = grammar.firstRule? := by
  have hfirst (g : Grammar) : g.firstRule? = (g.rules.map (·.name)).head? := List.head?_map.symm
  rw [hfirst, hfirst, h]

end Names

/-- The rules of the second grammar do what those of the first one do, one by one and under the same
names, but for calls of rules. -/
structure Mimics (Calls : String → String → Prop) (grammar grammar' : Grammar) : Prop where
  rules : List.Forall₂ (fun rule rule' => rule'.name = rule.name ∧
    rule.expr.Mimics Calls rule'.expr) grammar.rules grammar'.rules
  initializer : grammar'.initializer.map (·.code) = grammar.initializer.map (·.code)

namespace Mimics

variable {Calls : String → String → Prop} {grammar' : Grammar}

/-- A change of the rules, one by one, that leaves them their names. -/
theorem of_map {f : Rule → Rule} (hrules : grammar'.rules = grammar.rules.map f)
    (hinitializer : grammar'.initializer = grammar.initializer)
    (hname : ∀ rule : Rule, (f rule).name = rule.name)
    (h : ∀ rule ∈ grammar.rules, rule.expr.Mimics Calls (f rule).expr) :
    grammar.Mimics Calls grammar' where
  rules := by
    rw [hrules, List.forall₂_map_right_iff]
    exact List.forall₂_same.mpr fun rule hm => ⟨hname rule, h rule hm⟩
  initializer := congrArg (Option.map (·.code)) hinitializer

theorem names (h : grammar.Mimics Calls grammar') :
    grammar'.rules.map (·.name) = grammar.rules.map (·.name) := by
  have hsame := h.rules.imp fun rule rule' hr => hr.1.symm
  rw [← List.forall₂_eq_eq_eq, List.forall₂_map_left_iff, List.forall₂_map_right_iff]
  exact hsame.flip.imp fun rule rule' hr => hr.symm

theorem exists_rule (h : grammar.Mimics Calls grammar') {rule' : Rule}
    (hm : rule' ∈ grammar'.rules) :
    ∃ rule ∈ grammar.rules, rule'.name = rule.name ∧ rule.expr.Mimics Calls rule'.expr :=
  exists_of_forall₂ h.rules hm

theorem rule? (h : grammar.Mimics Calls grammar') {rule' : Rule}
    (hr : grammar'.rule? name = some rule') :
    ∃ rule, grammar.rule? name = some rule ∧ rule.expr.Mimics Calls rule'.expr := by
  obtain ⟨hrules, -⟩ := h
  unfold Grammar.rule? at hr ⊢
  generalize grammar.rules = rules, grammar'.rules = rules' at hrules hr ⊢
  induction hrules with
  | nil => cases hr
  | cons hfirst _ ih =>
    obtain ⟨hname, hmimics⟩ := hfirst
    rw [List.find?_cons] at hr ⊢
    rw [hname] at hr
    split at hr
    · cases hr
      exact ⟨_, rfl, hmimics⟩
    · exact ih hr

theorem mirrors (h : grammar.Mimics Eq grammar') (options : Options) :
    grammar.Mirrors options grammar' where
  rules _ _ hr := h.rule? hr
  startRules := congrArg options.startRules (firstRule?_of_names h.names)
  initializer := h.initializer

end Mimics

theorem mimics_redirect (old new : String) (grammar : Grammar) :
    grammar.Mimics (Expr.LedPast old new) (grammar.redirect old new) :=
  .of_map rfl rfl (fun _ => rfl) fun rule _ => rule.expr.mimics_redirect old new

/-- The comparison of two programs whose rules are known by their names in two grammars. -/
def byName (grammar grammar' : Grammar) (left right : Array Expectation) : Comparison α ε where
  Within := fun _ => True
  within_of_reaches := fun _ _ _ _ => trivial
  left := left
  right := right
  Known := fun memo memo' => ∀ name id id', grammar.ruleIndex? name = some id →
    grammar'.ruleIndex? name = some id' → ∀ offset, memo'.find? id' offset = memo.find? id offset
  Excused := fun _ => False
  traced := True

variable {grammar' : Grammar} {left right : Array Expectation} {memo memo' : Memo α}

theorem byName_insert
    (h : (byName grammar grammar' left right : Comparison α ε).Known memo memo') {name : String}
    {id id' : RuleId} (hi : grammar.ruleIndex? name = some id)
    (hi' : grammar'.ruleIndex? name = some id') (offset : Nat) (result : RuleResult α) :
    (byName grammar grammar' left right : Comparison α ε).Known (memo.insert id offset result)
      (memo'.insert id' offset result) := by
  intro name₂ id₂ id₂' hi₂ hi₂' offset₂
  have hkey : (id', offset) = (id₂', offset₂) ↔ (id, offset) = (id₂, offset₂) := by
    constructor
    · intro he
      obtain ⟨rfl, rfl⟩ := Prod.mk.inj he
      cases ruleIndex?_inj hi' hi₂'
      cases hi.symm.trans hi₂
      rfl
    · intro he
      obtain ⟨rfl, rfl⟩ := Prod.mk.inj he
      cases ruleIndex?_inj hi hi₂
      cases hi'.symm.trans hi₂'
      rfl
  rw [Memo.find?_insert, Memo.find?_insert, h name₂ id₂ id₂' hi₂ hi₂' offset₂]
  simp only [hkey]

variable {program' : Program}

/-- Rules of one name keep in step. -/
theorem Mirrors.invoke_lockstep (h : grammar.Mirrors options grammar')
    (hp : grammar.Denotes options program) (hq : grammar'.Denotes options program')
    (host : Host σ α ε) (limit depth : Nat) {name : String} {id id' : RuleId}
    (hi : grammar.ruleIndex? name = some id) (hi' : grammar'.ruleIndex? name = some id') :
    Lockstep (byName grammar grammar' program.expectations program'.expectations)
      (program.invoke host limit depth id) (program'.invoke host limit depth id') := by
  have htraced : program'.traced = program.traced := hq.traced.trans hp.traced.symm
  have hcached : program'.cached = program.cached := hq.cached.trans hp.cached.symm
  induction depth using Nat.strongRecOn generalizing name id id' with
  | _ depth ih =>
    intro s t hst
    obtain ⟨rule', found', hr', hf', rfl, hd'⟩ := hq.exists_found hi'
    obtain ⟨rule, found, hr, hf, hname, hd⟩ := hp.exists_found hi
    have hname (_ : True) : found'.name = found.name := hname.symm
    have htraced (_ : True) : program'.traced = program.traced := htraced
    have htrace := hst.trace htraced hname .enter hst.cursor hst.cursor
    have hkept : t.memoized? program' id' = s.memoized? program id := by
      unfold State.memoized?
      rw [hcached, hst.cursor, hst.memo found'.name id id' hi hi']
    cases hs : s.memoized? program id with
    | some result =>
      exact Program.hit_agree host hf hf' htraced hname hst hs (hkept.trans hs) trivial limit depth
        depth
    | none =>
      cases depth with
      | zero =>
        rw [Program.invoke_zero program host limit hf hs,
          Program.invoke_zero program' host limit hf' (hkept.trans hs), hst.cursor]
        rw [hst.cursor] at htrace
        exact Or.inr ⟨rfl, htrace⟩
      | succ depth =>
        rw [Program.invoke_miss program host limit hf hs,
          Program.invoke_miss program' host limit hf' (hkept.trans hs)]
        obtain ⟨rule₁, hr₁, hm⟩ := h.rules found'.name rule' hr'
        cases hr.symm.trans hr₁
        refine Program.evaluate_agree htraced hname htrace ?_ fun u u' result _ hu => ?_
        · refine hm.lockstep host (fun name name' id id' he hi hi' => ?_)
            (fun id => program'.invoke_keepsScope host limit depth id) hd hd'
          subst he
          exact ih depth (Nat.lt_succ_self depth) hi hi'
        · rw [State.remember_eq, State.remember_eq]
          dsimp only
          rw [hcached]
          split
          · rw [hu.cursor, htrace.cursor]
            exact byName_insert hu.memo hi hi' _ _
          · exact hu.memo

/-- Programs of grammars that mirror each other parse every input to the same. -/
theorem Mirrors.parse_eq (h : grammar.Mirrors options grammar')
    (hp : grammar.Denotes options program) (hq : grammar'.Denotes options program')
    (host : Host σ α ε) (memory : σ) (input : String) (how : ParseOptions) :
    program'.parse host memory input how = program.parse host memory input how := by
  cases hn : startName (options.startRules grammar.firstRule?) how.startRule with
  | error e =>
    have hp' := hp.findStart_of_error hn
    have hq' := hq.findStart_of_error (h.startRules ▸ hn)
    simp only [Program.parse, hp', hq']
  | ok name =>
    obtain ⟨id, hi, hs⟩ := hp.findStart_of_ok hn
    obtain ⟨id', hi', hs'⟩ := hq.findStart_of_ok (h.startRules ▸ hn)
    have hinit : program'.initializer = program.initializer := by
      rw [hq.initializer, hp.initializer, h.initializer]
    have hlock := h.invoke_lockstep hp hq host how.maxDepth how.maxDepth hi hi'
    have hagree :=
      Program.parse_agree rfl rfl (hq.endExpectation.trans hp.endExpectation.symm) hinit
      memory input hs hs' trivial (fun _ _ _ _ _ _ => rfl) fun s t hst _ _ =>
      hlock s t hst
    obtain ⟨e, -, hx⟩ | ⟨houtcome, hcalls, hhost, hevents⟩ := hagree
    · exact False.elim hx
    · rcases hr : program'.parse host memory input how with ⟨outcome, events, calls, memory'⟩
      rcases hr' : program.parse host memory input how with ⟨outcome', events', calls', memory''⟩
      rw [hr, hr'] at houtcome hcalls hhost hevents
      cases houtcome
      cases hcalls
      cases hhost
      cases hevents trivial
      rfl

end Grammar
end Peg
