import Peg.Proofs.ProxyRemoval

/-! What is left of proxies. Resolving a proxy leads every reference past it and keeps the ends of
all chains of proxies, so that in the end a reference names the end of the chain that it led to. No
reference to a proxy comes up again; the proxies that stay are start rules, and a second run finds
nothing to do. -/
namespace Peg

namespace Expr

/-- Leads a reference on to the rule that `lead` gives for the one it names. -/
def renameRef (lead : String → String) : Expr → Expr
  | ruleRef span name => .ruleRef span (lead name)
  | e => e

/-- The expression with its references led on by `lead`, and all else as it was. -/
def rename (lead : String → String) (e : Expr) : Expr := e.rebuild (renameRef lead)

variable {lead : String → String}

theorem rename_sequence (span : Span) (es : List Expr) :
    (sequence span es).rename lead = .sequence span (es.map (rename lead)) := by
  rw [rename, rebuild, rebuildAll_eq_map]
  rfl

theorem rename_choice (span : Span) (es : List Expr) :
    (choice span es).rename lead = .choice span (es.map (rename lead)) := by
  rw [rename, rebuild, rebuildAll_eq_map]
  rfl

theorem rename_wrapped (span : Span) (wrapper : Wrapper) (body : Expr) :
    (wrapped span wrapper body).rename lead = .wrapped span wrapper (body.rename lead) := rfl

theorem asRef?_rename (e : Expr) : (e.rename lead).asRef? = e.asRef?.map lead := by
  cases e <;> rfl

/-- The references of what is renamed are those that there were, renamed. -/
theorem mem_refs_rename {e : Expr} {name : String} :
    name ∈ (e.rename lead).refs ↔ ∃ name' ∈ e.refs, lead name' = name := by
  induction e using Expr.induct with
  | literal | charClass | any | predicate =>
    exact iff_of_false (List.not_mem_nil) fun ⟨_, hn, _⟩ => List.not_mem_nil hn
  | ruleRef span name' =>
    show name ∈ (ruleRef span (lead name')).refs ↔ _
    simp [refs_ruleRef, eq_comm]
  | sequence span es ih | choice span es ih =>
    simp only [rename_sequence, rename_choice, mem_refs_sequence, mem_refs_choice, List.mem_map]
    constructor
    · rintro ⟨_, ⟨e, he, rfl⟩, hn⟩
      obtain ⟨name', hn', hl⟩ := (ih e he).mp hn
      exact ⟨name', ⟨e, he, hn'⟩, hl⟩
    · rintro ⟨name', ⟨e, he, hn'⟩, hl⟩
      exact ⟨_, ⟨e, he, rfl⟩, (ih e he).mpr ⟨name', hn', hl⟩⟩
  | wrapped span wrapper body ih => rwa [rename_wrapped, refs_wrapped, refs_wrapped]

theorem rename_rename (lead' : String → String) (e : Expr) :
    (e.rename lead).rename lead' = e.rename (lead' ∘ lead) := by
  induction e using Expr.induct with
  | literal | charClass | any | ruleRef | predicate => rfl
  | sequence span es ih | choice span es ih =>
    have hes : (es.map (rename lead)).map (rename lead') = es.map (rename (lead' ∘ lead)) :=
      List.map_map.trans (List.map_congr_left ih)
    simp only [rename_sequence, rename_choice, hes]
  | wrapped span wrapper body ih => rw [rename_wrapped, rename_wrapped, rename_wrapped, ih]

/-- Nothing changes if every reference is led on to the rule that it names. -/
theorem rename_of_fixed {e : Expr} (h : ∀ name ∈ e.refs, lead name = name) : e.rename lead = e := by
  apply rebuild_of_fixed
  intro part hp
  cases part with
  | ruleRef span name =>
    have hname : lead name = name := h name (mem_refs.mpr ⟨_, hp, rfl⟩)
    rw [renameRef, hname]
  | literal | charClass | any | predicate | sequence | choice | wrapped => rfl

end Expr

def Rule.rename (lead : String → String) (rule : Rule) : Rule :=
  { rule with expr := rule.expr.rename lead }

/-- The rule that a reference to `name` leads to when those to `old` lead to `new`. -/
def past (old new name : String) : String := if name = old then new else name

theorem Expr.redirectRef_eq_renameRef (old new : String) :
    redirectRef old new = renameRef (past old new) := by
  funext e
  cases e <;> rfl

theorem past_self (old new : String) : past old new old = new := if_pos rfl

theorem past_of_ne {old new name : String} (h : name ≠ old) : past old new name = name := if_neg h

theorem past_ne {old new : String} (h : new ≠ old) (name : String) : past old new name ≠ old := by
  unfold past
  split
  · exact h
  · assumption

namespace Grammar

variable {grammar grammar' grammar'' : Grammar} {lead lead' : String → String}
  {name old new target stop : String}

def rename (lead : String → String) (grammar : Grammar) : Grammar :=
  { grammar with rules := grammar.rules.map (Rule.rename lead) }

theorem redirect_eq_rename (old new : String) (grammar : Grammar) :
    grammar.redirect old new = grammar.rename (past old new) := by
  rw [redirect, Expr.redirectRef_eq_renameRef]
  rfl

theorem rename_rename (lead lead' : String → String) (grammar : Grammar) :
    (grammar.rename lead).rename lead' = grammar.rename (lead' ∘ lead) := by
  have hrule : Rule.rename lead' ∘ Rule.rename lead = Rule.rename (lead' ∘ lead) := by
    funext rule
    exact congrArg (fun e => { rule with expr := e }) (rule.expr.rename_rename lead')
  unfold rename
  rw [List.map_map, hrule]

theorem rename_of_fixed (h : ∀ rule ∈ grammar.rules, ∀ name ∈ rule.expr.refs, lead name = name) :
    grammar.rename lead = grammar := by
  have hrules : grammar.rules.map (Rule.rename lead) = grammar.rules := by
    refine (List.map_congr_left fun rule hm => ?_).trans (List.map_id grammar.rules)
    exact congrArg (fun e => { rule with expr := e }) (Expr.rename_of_fixed (h rule hm))
  unfold rename
  rw [hrules]

theorem rule?_redirect_of {rule : Rule} (h : grammar.rule? name = some rule) :
    (grammar.redirect old new).rule? name = some (rule.rename (past old new)) := by
  rw [rule?_redirect, h, Expr.redirectRef_eq_renameRef]
  rfl

theorem not_unused_iff : ¬ grammar.Unused name ↔ ∃ rule ∈ grammar.rules, name ∈ rule.expr.refs := by
  unfold Unused
  push Not
  rfl

/-- The rule called `name` is a proxy for `target`. -/
def Proxy (grammar : Grammar) (name target : String) : Prop :=
  ∃ rule, grammar.rule? name = some rule ∧ rule.proxyTarget? = some target

/-- The rule called `name` is no proxy. -/
def Ends (grammar : Grammar) (name : String) : Prop :=
  ∃ rule, grammar.rule? name = some rule ∧ rule.proxyTarget? = none

/-- A chain of proxies leads from `name` to `stop`, which is none. -/
def LeadsTo (grammar : Grammar) (name stop : String) : Prop :=
  Relation.ReflTransGen grammar.Proxy name stop ∧ grammar.Ends stop

theorem Proxy.unique (h : grammar.Proxy name target) (h' : grammar.Proxy name new) :
    target = new := by
  obtain ⟨rule, hr, ht⟩ := h
  obtain ⟨rule', hr', ht'⟩ := h'
  cases hr.symm.trans hr'
  exact Option.some.inj (ht.symm.trans ht')

theorem Proxy.not_ends (h : grammar.Proxy name target) : ¬ grammar.Ends name := by
  rintro ⟨rule', hr', ht'⟩
  obtain ⟨rule, hr, ht⟩ := h
  cases hr.symm.trans hr'
  cases ht.symm.trans ht'

theorem Proxy.ne (h : grammar.Proxy name target) : target ≠ name := by
  obtain ⟨rule, hr, ht⟩ := h
  exact name_of_rule? hr ▸ ne_of_proxyTarget? ht

/-- What is no proxy is none when references are led past a proxy. -/
theorem Ends.redirect (h : grammar.Ends name) (hp : grammar.Proxy old new) :
    (grammar.redirect old new).Ends name := by
  have hne : name ≠ old := fun he => hp.not_ends (he ▸ h)
  obtain ⟨rule, hr, ht⟩ := h
  refine ⟨rule.rename (past old new), rule?_redirect_of hr, ?_⟩
  rw [Rule.proxyTarget?, Option.filter_eq_none_iff] at ht ⊢
  intro target htarget
  obtain ⟨name', hn', rfl⟩ := Option.map_eq_some_iff.mp ((Expr.asRef?_rename rule.expr) ▸ htarget)
  have hself : name' = rule.name := by simpa using ht name' hn'
  have hstays : past old new name' = rule.name := by
    rw [hself, past_of_ne (name_of_rule? hr ▸ hne)]
  simp [Rule.rename, hstays]

theorem Proxy.redirect (h : grammar.Proxy name target) (hne : past old new target ≠ name) :
    (grammar.redirect old new).Proxy name (past old new target) := by
  obtain ⟨rule, hr, ht⟩ := h
  obtain ⟨ha, -⟩ := Option.filter_eq_some_iff.mp ht
  refine ⟨rule.rename (past old new), rule?_redirect_of hr, Option.filter_eq_some_iff.mpr ⟨?_, ?_⟩⟩
  · rw [Rule.rename, Expr.asRef?_rename, ha]
    rfl
  · exact decide_eq_true (name_of_rule? hr ▸ hne)

/-- Leading references past a proxy keeps the ends of chains. -/
theorem LeadsTo.redirect (h : grammar.LeadsTo name stop) (hp : grammar.Proxy old new) :
    (grammar.redirect old new).LeadsTo (past old new name) stop := by
  obtain ⟨hchain, hends⟩ := h
  have hstop : past old new stop = stop := past_of_ne fun he => hp.not_ends (he ▸ hends)
  refine ⟨?_, hends.redirect hp⟩
  induction hchain using Relation.ReflTransGen.head_induction_on with
  | refl => rw [hstop]
  | @head first second hfirst _ ih =>
    by_cases hname : first = old
    · subst hname
      cases hfirst.unique hp
      rw [past_self]
      rwa [past_of_ne hfirst.ne] at ih
    · rw [past_of_ne hname]
      by_cases hself : past old new second = first
      · rwa [hself] at ih
      · exact .head (hfirst.redirect hself) ih

/-- The second grammar is the first one with its references led on by `lead`: the ends of chains
stay what they are, and no reference comes to a name that nothing referred to. -/
structure Leads (lead : String → String) (grammar grammar' : Grammar) : Prop where
  renamed : grammar' = grammar.rename lead
  chains : ∀ name stop, grammar.LeadsTo name stop → grammar'.LeadsTo (lead name) stop
  ends : ∀ name, grammar.Ends name → grammar'.Ends name
  used : ∀ name, lead name = name ∨ ¬ grammar.Unused (lead name)

namespace Leads

theorem refl (grammar : Grammar) : Leads id grammar grammar where
  renamed := (rename_of_fixed fun _ _ _ _ => rfl).symm
  chains _ _ h := h
  ends _ h := h
  used _ := Or.inl rfl

/-- What is referred to is what a reference was led to. -/
theorem exists_used (h : Leads lead grammar grammar') (hused : ¬ grammar'.Unused name) :
    ∃ name', ¬ grammar.Unused name' ∧ lead name' = name := by
  obtain ⟨rule', hm', hn⟩ := not_unused_iff.mp hused
  rw [h.renamed] at hm'
  obtain ⟨rule, hm, rfl⟩ := List.mem_map.mp hm'
  obtain ⟨name', hn', hlead⟩ := Expr.mem_refs_rename.mp hn
  exact ⟨name', not_unused_iff.mpr ⟨rule, hm, hn'⟩, hlead⟩

theorem unused (h : Leads lead grammar grammar') (hu : grammar.Unused name) :
    grammar'.Unused name := by
  by_contra hused'
  obtain ⟨name', hbefore, rfl⟩ := h.exists_used hused'
  rcases h.used name' with hsame | hused
  · exact hbefore (hsame ▸ hu)
  · exact hused hu

/-- Nothing refers to a rule that nothing is led to. -/
theorem unused_of_ne (h : Leads lead grammar grammar') (hne : ∀ name', lead name' ≠ name) :
    grammar'.Unused name := by
  by_contra hused
  obtain ⟨name', -, hlead⟩ := h.exists_used hused
  exact hne name' hlead

theorem trans (h : Leads lead grammar grammar') (h' : Leads lead' grammar' grammar'') :
    Leads (lead' ∘ lead) grammar grammar'' where
  renamed := by rw [h'.renamed, h.renamed, rename_rename]
  chains name stop hl := h'.chains _ _ (h.chains name stop hl)
  ends name he := h'.ends name (h.ends name he)
  used name := by
    rcases h'.used (lead name) with hsame | hused
    · rw [Function.comp_apply, hsame]
      exact h.used name
    · exact Or.inr fun hu => hused (h.unused hu)

theorem of_redirect (hp : grammar.Proxy old new) :
    Leads (past old new) grammar (grammar.redirect old new) where
  renamed := redirect_eq_rename old new grammar
  chains _ _ h := h.redirect hp
  ends _ h := h.redirect hp
  used name := by
    unfold past
    split
    · obtain ⟨rule, hr, ht⟩ := hp
      exact Or.inr fun hu => hu.ne_target (List.mem_of_find?_eq_some hr) ht rfl
    · exact Or.inl rfl

/-- Nothing is led to a rule that nothing referred to. -/
theorem ne_of_unused (h : Leads lead grammar grammar') (hu : grammar.Unused old)
    (hne : name ≠ old) : lead name ≠ old := by
  intro he
  rcases h.used name with hsame | hused
  · exact hne (hsame.symm.trans he)
  · exact hused (he.symm ▸ hu)

end Leads

/-- At a place where there is no proxy nothing is done; references are led past one that is
there. -/
theorem resolveProxy_cases (grammar : Grammar) (index : Nat) :
    (grammar.resolveProxy index = grammar ∧
      ∀ rule, grammar.rules[index]? = some rule → rule.proxyTarget? = none) ∨
    ∃ proxy target, grammar.rules[index]? = some proxy ∧ proxy.proxyTarget? = some target ∧
      grammar.resolveProxy index = grammar.redirect proxy.name target := by
  unfold resolveProxy
  cases hi : grammar.rules[index]? with
  | none => exact Or.inl ⟨rfl, fun rule hr => nomatch hr⟩
  | some rule =>
    cases ht : rule.proxyTarget? with
    | none => exact Or.inl ⟨by simp only [ht], fun rule' hr => Option.some.inj hr ▸ ht⟩
    | some target => exact Or.inr ⟨rule, target, rfl, ht, by simp only [ht]⟩

theorem mem_removable_cons {names : List String} {index first : Nat} {indices : List Nat} :
    index ∈ (grammar.resolveProxies names (first :: indices)).2 ↔
      index = first ∧ grammar.isRemovable names first = true ∨
        index ∈ ((grammar.resolveProxy first).resolveProxies names indices).2 := by
  rw [resolveProxies]
  dsimp only
  split
  · rename_i hr
    rw [List.mem_cons, and_iff_left hr]
  · rename_i hr
    exact ⟨Or.inr, fun h => h.resolve_left fun ⟨_, hr'⟩ => hr hr'⟩

/-- Resolving the proxy at a place leads references on. Nothing leads to the proxy any more, which
can go unless parsing may start from it. -/
theorem exists_leads_resolveProxy (hn : (grammar.rules.map (·.name)).Nodup) (names : List String)
    (index : Nat) :
    ∃ lead, Leads lead grammar (grammar.resolveProxy index) ∧
      ∀ rule, grammar.rules[index]? = some rule → grammar.Ends rule.name ∨
        (grammar.resolveProxy index).Unused rule.name ∧ (∀ name, lead name ≠ rule.name) ∧
          (rule.name ∈ names ∨ grammar.isRemovable names index = true) := by
  rcases grammar.resolveProxy_cases index with ⟨hsame, hnone⟩ | ⟨proxy, target, hi, ht, hredirect⟩
  · rw [hsame]
    exact ⟨id, Leads.refl grammar, fun rule hr =>
      Or.inl ⟨rule, rule?_of_mem hn (List.mem_of_getElem? hr), hnone rule hr⟩⟩
  · have hproxy : grammar.Proxy proxy.name target :=
      ⟨proxy, rule?_of_mem hn (List.mem_of_getElem? hi), ht⟩
    rw [hredirect]
    refine ⟨past proxy.name target, Leads.of_redirect hproxy, fun rule hr => ?_⟩
    cases hi.symm.trans hr
    exact Or.inr ⟨unused_redirect hproxy.ne, past_ne hproxy.ne, (Classical.em _).imp_right
      fun hstart => isRemovable_iff.mpr ⟨proxy, target, hi, ht, hstart⟩⟩

/-- Resolving proxies leads references on. A rule that was looked at is no proxy, or nothing leads
to it any more; then it can go, unless parsing may start from it. -/
theorem exists_leads (hn : (grammar.rules.map (·.name)).Nodup) (names : List String)
    (indices : List Nat) :
    ∃ lead, Leads lead grammar (grammar.resolveProxies names indices).1 ∧
      ∀ index ∈ indices, ∀ rule, grammar.rules[index]? = some rule →
        (grammar.resolveProxies names indices).1.Ends rule.name ∨
          (∀ name, lead name ≠ rule.name) ∧
            (rule.name ∈ names ∨ index ∈ (grammar.resolveProxies names indices).2) := by
  induction indices generalizing grammar with
  | nil => exact ⟨id, Leads.refl grammar, fun _ h => nomatch h⟩
  | cons first indices ih =>
    have hnames := grammar.names_resolveProxy first
    obtain ⟨lead, hlead, hfirst⟩ := exists_leads_resolveProxy hn names first
    obtain ⟨lead', hlead', hlater⟩ := ih (hnames ▸ hn)
    refine ⟨lead' ∘ lead, hlead.trans hlead', fun index hi rule hr => ?_⟩
    rw [mem_removable_cons]
    rcases List.mem_cons.mp hi with rfl | hi
    · rcases hfirst rule hr with hends | ⟨hu, hne, hgo⟩
      · exact Or.inl (hlead'.ends _ (hlead.ends _ hends))
      · exact Or.inr ⟨fun name => hlead'.ne_of_unused hu (hne name),
          hgo.imp_right fun hgoes => Or.inl ⟨rfl, hgoes⟩⟩
    · obtain ⟨rule', hr', hname⟩ := exists_of_names hnames.symm hr
      rcases hname ▸ hlater index hi rule' hr' with hends | ⟨hne, hgo⟩
      · exact Or.inl hends
      · exact Or.inr ⟨fun name => hne (lead name), hgo.imp_right Or.inr⟩

section Loops

variable {P : String → Prop}

/-- Proxies for which `P` holds lead from the rule back to itself. -/
def Loops (grammar : Grammar) (P : String → Prop) (name : String) : Prop :=
  Relation.TransGen (fun first second => grammar.Proxy first second ∧ P first) name name

/-- The first rule is not declared behind the second one. -/
def NoLater (grammar : Grammar) (first second : String) : Prop :=
  ∀ index index', grammar.ruleIndex? first = some index → grammar.ruleIndex? second = some index' →
    index ≤ index'

/-- What is a proxy when references are led past one was a proxy before. -/
theorem Proxy.of_redirect (hp : grammar.Proxy old new)
    (h : (grammar.redirect old new).Proxy name target) :
    ∃ before, grammar.Proxy name before ∧ past old new before = target := by
  obtain ⟨rule', hr', ht'⟩ := h
  obtain ⟨rule, hr, rfl⟩ := Option.map_eq_some_iff.mp (rule?_redirect old new grammar name ▸ hr')
  rw [Rule.proxyTarget?, Expr.redirectRef_eq_renameRef] at ht'
  obtain ⟨ha, hne⟩ := Option.filter_eq_some_iff.mp ht'
  obtain ⟨before, hb, rfl⟩ := Option.map_eq_some_iff.mp (Expr.asRef?_rename rule.expr ▸ ha)
  refine ⟨before, ⟨rule, hr, Option.filter_eq_some_iff.mpr ⟨hb, decide_eq_true ?_⟩⟩, rfl⟩
  rintro rfl
  by_cases ho : rule.name = old
  · obtain ⟨proxy, hproxy, ht⟩ := hp
    obtain ⟨htarget, hother⟩ := Option.filter_eq_some_iff.mp ht
    have hsame : proxy = rule := by
      rw [← name_of_rule? hr, ho] at hr
      exact Option.some.inj (hproxy.symm.trans hr)
    cases hsame
    rw [hb] at htarget
    exact of_decide_eq_true hother (Option.some.inj htarget).symm
  · exact of_decide_eq_true hne (past_of_ne ho)

/-- A loop that is left when references are led past a proxy was one before. -/
theorem Loops.of_redirect (hp : grammar.Proxy old new) (hold : P old)
    (h : (grammar.redirect old new).Loops P name) : grammar.Loops P name := by
  refine Relation.TransGen.closed (fun first second hstep => ?_) _ _ h
  obtain ⟨hproxy, hfirst⟩ := hstep
  obtain ⟨before, hbefore, rfl⟩ := hp.of_redirect hproxy
  by_cases he : before = old
  · rw [he] at hbefore ⊢
    rw [past_self]
    exact .head ⟨hbefore, hfirst⟩ (.single ⟨hp, hold⟩)
  · rw [past_of_ne he]
    exact .single ⟨hbefore, hfirst⟩

/-- A rule that stays a proxy stays on its loop when references are led past another one. -/
theorem Loops.redirect (hp : grammar.Proxy old new) (hne : name ≠ old) (h : grammar.Loops P name)
    (ht : (grammar.redirect old new).Proxy name target) :
    (grammar.redirect old new).Loops P name := by
  obtain ⟨second, ⟨hfirst, hname⟩, hrest⟩ := Relation.TransGen.head'_iff.mp h
  have hstep : (grammar.redirect old new).Proxy name (past old new second) := by
    obtain ⟨before, hbefore, rfl⟩ := hp.of_redirect ht
    cases hfirst.unique hbefore
    exact ht
  have hback := Relation.ReflTransGen.lift' (past old new)
    (p := fun first second => (grammar.redirect old new).Proxy first second ∧ P first)
    (fun first second hstep => ?_) _ _ hrest
  · rw [Function.onFun_apply, past_of_ne hne] at hback
    exact .head' ⟨hstep, hname⟩ hback
  · obtain ⟨hproxy, hP⟩ := hstep
    by_cases he : first = old
    · subst he
      cases hproxy.unique hp
      rw [Function.onFun_apply, past_self, past_of_ne hp.ne]
    · rw [Function.onFun_apply, past_of_ne he]
      by_cases hself : past old new second = first
      · rw [hself]
      · exact .single ⟨hproxy.redirect hself, hP⟩

/-- Led past a proxy, another rule is a proxy off any loop if it was so before. -/
theorem proxy_and_not_loops_redirect (hp : grammar.Proxy old new) (hold : P old) (hname : P name)
    (hne : name ≠ old) :
    (∃ target, (grammar.redirect old new).Proxy name target) ∧
        ¬ (grammar.redirect old new).Loops P name ↔
      (∃ target, grammar.Proxy name target) ∧ ¬ grammar.Loops P name := by
  constructor
  · rintro ⟨⟨target, ht⟩, hl⟩
    obtain ⟨before, hbefore, -⟩ := hp.of_redirect ht
    exact ⟨⟨before, hbefore⟩, fun h => hl (h.redirect hp hne ht)⟩
  · rintro ⟨⟨target, ht⟩, hl⟩
    refine ⟨⟨past old new target, ht.redirect fun hself => ?_⟩, fun h => hl (h.of_redirect hp hold)⟩
    by_cases he : target = old
    · rw [he, past_self] at hself
      rw [he] at ht
      rw [hself] at hp
      exact hl (.head ⟨ht, hname⟩ (.single ⟨hp, hold⟩))
    · rw [past_of_ne he] at hself
      exact ht.ne hself

/-- Rules with the same name are at the same place. -/
theorem index_eq_of_name (hn : (grammar.rules.map (·.name)).Nodup) {index index' : Nat}
    {rule rule' : Rule} (hi : grammar.rules[index]? = some rule)
    (hi' : grammar.rules[index']? = some rule') (hname : rule'.name = rule.name) :
    index' = index := by
  have hat : (grammar.rules.map (·.name))[index]? = (grammar.rules.map (·.name))[index']? := by
    rw [List.getElem?_map, List.getElem?_map, hi, hi']
    exact congrArg some hname.symm
  have hlt : index < (grammar.rules.map (·.name)).length := by
    rw [List.length_map]
    exact (List.getElem?_eq_some_iff.mp hi).1
  exact ((List.getElem?_inj hlt hn).mp hat).symm

theorem ruleIndex?_of_getElem? (hn : (grammar.rules.map (·.name)).Nodup) {index : Nat} {rule : Rule}
    (hi : grammar.rules[index]? = some rule) : grammar.ruleIndex? rule.name = some index := by
  obtain ⟨index', hindex, hi'⟩ := ruleIndex?_of_rule? (rule?_of_mem hn (List.mem_of_getElem? hi))
  rw [hindex, index_eq_of_name hn hi hi' rfl]

/-- The same where the proxy is one that is declared in front of the rule. -/
theorem proxy_and_not_loops_resolveProxy (hn : (grammar.rules.map (·.name)).Nodup)
    {first index : Nat} (hlt : first < index) {rule : Rule}
    (hi : grammar.rules[index]? = some rule) :
    (∃ target, (grammar.resolveProxy first).Proxy rule.name target) ∧
        ¬ (grammar.resolveProxy first).Loops ((grammar.resolveProxy first).NoLater · rule.name)
          rule.name ↔
      (∃ target, grammar.Proxy rule.name target) ∧
        ¬ grammar.Loops (grammar.NoLater · rule.name) rule.name := by
  have hlater : (grammar.resolveProxy first).NoLater = grammar.NoLater := by
    unfold NoLater
    rw [ruleIndex?_of_names (grammar.names_resolveProxy first)]
  rw [hlater]
  rcases grammar.resolveProxy_cases first with ⟨hsame, -⟩ | ⟨proxy, target, hp, ht, hredirect⟩
  · rw [hsame]
  · rw [hredirect]
    refine proxy_and_not_loops_redirect ⟨proxy, rule?_of_mem hn (List.mem_of_getElem? hp), ht⟩
      (fun i j h h' => ?_) (fun i j h h' => ?_) fun he => ?_
    · cases (ruleIndex?_of_getElem? hn hp).symm.trans h
      cases (ruleIndex?_of_getElem? hn hi).symm.trans h'
      exact hlt.le
    · exact (Option.some.inj (h.symm.trans h')).le
    · exact hlt.ne (index_eq_of_name hn hi hp he.symm)

/-- The rules in front of the place `first` are no proxies, or nothing refers to them. -/
def Settled (grammar : Grammar) (first : Nat) : Prop :=
  ∀ index < first, ∀ rule, grammar.rules[index]? = some rule →
    grammar.Ends rule.name ∨ grammar.Unused rule.name

theorem Settled.resolveProxy {first : Nat} (h : grammar.Settled first)
    (hn : (grammar.rules.map (·.name)).Nodup) :
    (grammar.resolveProxy first).Settled (first + 1) := by
  obtain ⟨lead, hlead, hfirst⟩ := exists_leads_resolveProxy hn [] first
  intro index hlt rule hr
  obtain ⟨found, hf, hname⟩ := exists_of_names (grammar.names_resolveProxy first) hr
  rw [← hname]
  rcases Nat.lt_or_eq_of_le (Nat.le_of_lt_succ hlt) with hbefore | rfl
  · exact (h index hbefore found hf).imp (hlead.ends _) hlead.unused
  · exact (hfirst found hf).imp (hlead.ends _) And.left

/-- The first of the rules that are still to be looked at is on no loop of rules that were looked at
already. -/
theorem Settled.not_loops {first : Nat} (h : grammar.Settled first)
    (hn : (grammar.rules.map (·.name)).Nodup) {rule : Rule}
    (hi : grammar.rules[first]? = some rule) :
    ¬ grammar.Loops (grammar.NoLater · rule.name) rule.name := by
  intro hloops
  obtain ⟨second, ⟨hproxy, -⟩, hrest⟩ := Relation.TransGen.head'_iff.mp hloops
  rcases hrest.cases_head with he | ⟨third, ⟨hproxy', hlater⟩, -⟩
  · exact hproxy.ne he
  obtain ⟨found, hr, -⟩ := id hproxy'
  obtain ⟨index, hindex, hi'⟩ := ruleIndex?_of_rule? hr
  have hname := name_of_rule? hr
  have hle : index ≤ first := hlater index first hindex (ruleIndex?_of_getElem? hn hi)
  have hne : index ≠ first := by
    rintro rfl
    cases hi.symm.trans hi'
    exact hproxy.ne hname.symm
  rcases h index (lt_of_le_of_ne hle hne) found hi' with hends | hunused
  · exact hproxy'.not_ends (hname ▸ hends)
  · obtain ⟨proxy, hproxy, ht⟩ := hproxy
    exact hunused.ne_target (List.mem_of_find?_eq_some hproxy) ht hname.symm

theorem Settled.isRemovable_iff {first : Nat} (h : grammar.Settled first)
    (hn : (grammar.rules.map (·.name)).Nodup) (names : List String) {rule : Rule}
    (hi : grammar.rules[first]? = some rule) :
    grammar.isRemovable names first = true ↔ rule.name ∉ names ∧
      (∃ target, grammar.Proxy rule.name target) ∧
        ¬ grammar.Loops (grammar.NoLater · rule.name) rule.name := by
  have hrule := rule?_of_mem hn (List.mem_of_getElem? hi)
  rw [Grammar.isRemovable_iff]
  constructor
  · rintro ⟨proxy, target, hr, ht, hstart⟩
    cases hi.symm.trans hr
    exact ⟨hstart, ⟨target, rule, hrule, ht⟩, h.not_loops hn hi⟩
  · rintro ⟨hstart, ⟨target, proxy, hr, ht⟩, -⟩
    cases hrule.symm.trans hr
    exact ⟨rule, target, hi, ht, hstart⟩

/-- Of the rules that are still to be looked at, those can go that are proxies from which parsing
may not start, but for the last one of each loop. -/
theorem Settled.mem_removable_iff {first : Nat} (h : grammar.Settled first)
    (hn : (grammar.rules.map (·.name)).Nodup) (names : List String) (count : Nat) {index : Nat}
    {rule : Rule} (hi : grammar.rules[index]? = some rule) :
    index ∈ (grammar.resolveProxies names (List.range' first count)).2 ↔
      (first ≤ index ∧ index < first + count) ∧ rule.name ∉ names ∧
        (∃ target, grammar.Proxy rule.name target) ∧
        ¬ grammar.Loops (grammar.NoLater · rule.name) rule.name := by
  induction count generalizing grammar first rule with
  | zero => exact iff_of_false (fun h => nomatch h) fun ⟨hrange, _⟩ => by omega
  | succ count ih =>
    have hnames := grammar.names_resolveProxy first
    obtain ⟨rule', hi', hname⟩ := exists_of_names hnames.symm hi
    have hlater := ih (h.resolveProxy hn) (hnames ▸ hn) hi'
    rw [hname] at hlater
    rw [List.range'_succ, mem_removable_cons, hlater]
    rcases Nat.lt_trichotomy index first with hbefore | rfl | hbehind
    · exact iff_of_false (by omega) (by omega)
    · rw [h.isRemovable_iff hn names hi]
      constructor
      · rintro (⟨-, hgone⟩ | ⟨⟨hlt, -⟩, -⟩)
        · exact ⟨by omega, hgone⟩
        · omega
      · rintro ⟨-, hgone⟩
        exact Or.inl ⟨rfl, hgone⟩
    · rw [proxy_and_not_loops_resolveProxy hn hbehind hi]
      constructor
      · rintro (⟨rfl, -⟩ | ⟨hrange, hgone⟩)
        · omega
        · exact ⟨by omega, hgone⟩
      · rintro ⟨hrange, hgone⟩
        exact Or.inr ⟨by omega, hgone⟩

end Loops

section Removal

variable {names : List String} {resolved : Grammar} {removable : List Nat}

theorem names_of_resolved
    (h : grammar.resolveProxies names (List.range grammar.rules.length) = (resolved, removable)) :
    resolved.rules.map (·.name) = grammar.rules.map (·.name) := by
  have hnames := grammar.names_resolveProxies names (List.range grammar.rules.length)
  rwa [h] at hnames

theorem names_of_removeProxies
    (h : grammar.resolveProxies names (List.range grammar.rules.length) = (resolved, removable)) :
    (grammar.removeProxies names).2 =
      (resolved.rules.zipIdx.filter fun entry => removable.contains entry.2).map (·.1.name) := by
  unfold removeProxies
  rw [h]
  dsimp only
  rw [List.partition_eq_filter_filter]

theorem mem_removed_iff
    (h : grammar.resolveProxies names (List.range grammar.rules.length) = (resolved, removable)) :
    name ∈ (grammar.removeProxies names).2 ↔
      ∃ index rule, resolved.rules[index]? = some rule ∧ index ∈ removable ∧ rule.name = name := by
  rw [names_of_removeProxies h, List.mem_map]
  constructor
  · rintro ⟨⟨rule, index⟩, hm, hname⟩
    obtain ⟨hi, hr⟩ := List.mem_filter.mp hm
    exact ⟨index, rule, List.mk_mem_zipIdx_iff_getElem?.mp hi, List.contains_iff_mem.mp hr, hname⟩
  · rintro ⟨index, rule, hi, hr, hname⟩
    refine ⟨(rule, index), List.mem_filter.mpr ⟨?_, List.contains_iff_mem.mpr hr⟩, hname⟩
    exact List.mk_mem_zipIdx_iff_getElem?.mpr hi

/-- Those proxies are removed from which parsing may not start, but for the last one of each
loop. -/
theorem mem_removed_iff_proxy (hn : (grammar.rules.map (·.name)).Nodup)
    (h : grammar.resolveProxies names (List.range grammar.rules.length) = (resolved, removable)) :
    name ∈ (grammar.removeProxies names).2 ↔ name ∉ names ∧
      (∃ target, grammar.Proxy name target) ∧ ¬ grammar.Loops (grammar.NoLater · name) name := by
  have hgone {index : Nat} {rule : Rule} (hi : grammar.rules[index]? = some rule) :
      index ∈ removable ↔ rule.name ∉ names ∧ (∃ target, grammar.Proxy rule.name target) ∧
        ¬ grammar.Loops (grammar.NoLater · rule.name) rule.name := by
    have hrange : index < 0 + grammar.rules.length := by
      rw [Nat.zero_add]
      exact (List.getElem?_eq_some_iff.mp hi).1
    have hsettled : grammar.Settled 0 := fun index hlt => absurd hlt (Nat.not_lt_zero index)
    have hiff := hsettled.mem_removable_iff hn names grammar.rules.length hi
    rw [← List.range_eq_range', h] at hiff
    rw [hiff]
    exact and_iff_right ⟨Nat.zero_le index, hrange⟩
  rw [mem_removed_iff h]
  constructor
  · rintro ⟨index, rule, hi, hr, rfl⟩
    obtain ⟨found, hf, hname⟩ := exists_of_names (names_of_resolved h) hi
    exact hname ▸ (hgone hf).mp hr
  · rintro ⟨hstart, ⟨target, hproxy⟩, hloops⟩
    obtain ⟨found, hr, -⟩ := id hproxy
    obtain ⟨index, -, hf⟩ := ruleIndex?_of_rule? hr
    obtain ⟨rule, hi, hname⟩ := exists_of_names (names_of_resolved h).symm hf
    cases name_of_rule? hr
    exact ⟨index, rule, hi, (hgone hf).mpr ⟨hstart, ⟨target, hproxy⟩, hloops⟩, hname⟩

/-- Those rules stay that are not called as one that is removed. -/
theorem rules_removeProxies (hn : (grammar.rules.map (·.name)).Nodup)
    (h : grammar.resolveProxies names (List.range grammar.rules.length) = (resolved, removable)) :
    (grammar.removeProxies names).1 = { resolved with
      rules := resolved.rules.filter fun rule => rule.name ∉ (grammar.removeProxies names).2 } := by
  have hgone : ∀ entry ∈ resolved.rules.zipIdx,
      (!removable.contains entry.2) = decide (entry.1.name ∉ (grammar.removeProxies names).2) := by
    rintro ⟨rule, index⟩ hm
    have hi := List.mk_mem_zipIdx_iff_getElem?.mp hm
    rw [Bool.eq_iff_iff, Bool.not_eq_true', decide_eq_true_iff, ← Bool.not_eq_true, not_iff_not,
      List.contains_iff_mem, mem_removed_iff h]
    constructor
    · exact fun hr => ⟨index, rule, hi, hr, rfl⟩
    · rintro ⟨index', rule', hi', hr, hname⟩
      exact index_eq_of_name (names_of_resolved h ▸ hn) hi hi' hname ▸ hr
  have hfilter := List.filter_map (f := Prod.fst) (l := resolved.rules.zipIdx)
    (p := fun rule : Rule => decide (rule.name ∉ (grammar.removeProxies names).2))
  rw [List.zipIdx_map_fst] at hfilter
  rw [hfilter]
  conv_lhs => rw [removeProxies_eq h, List.filter_congr hgone]
  rfl

theorem mem_rules_removeProxies (hn : (grammar.rules.map (·.name)).Nodup)
    (h : grammar.resolveProxies names (List.range grammar.rules.length) = (resolved, removable))
    {rule : Rule} : rule ∈ (grammar.removeProxies names).1.rules ↔
      rule ∈ resolved.rules ∧ rule.name ∉ (grammar.removeProxies names).2 := by
  rw [rules_removeProxies hn h, List.mem_filter, decide_eq_true_iff]

/-- Parsing does not start from a rule that is removed, and nothing refers to it any more. -/
theorem unused_of_removed
    (h : grammar.resolveProxies names (List.range grammar.rules.length) = (resolved, removable))
    (hm : name ∈ (grammar.removeProxies names).2) : name ∉ names ∧ resolved.Unused name := by
  obtain ⟨index, rule, hi, hr, rfl⟩ := (mem_removed_iff h).mp hm
  have hgone := mt (not_mem_removable h hi) (not_not_intro hr)
  rwa [not_or, not_not] at hgone

/-- Removing proxies leads references on. A rule is no proxy in the end, or nothing leads to it any
more; then it is removed, unless parsing may start from it. -/
theorem exists_leads_removeProxies (hn : (grammar.rules.map (·.name)).Nodup)
    (h : grammar.resolveProxies names (List.range grammar.rules.length) = (resolved, removable)) :
    ∃ lead, Leads lead grammar resolved ∧ ∀ rule ∈ resolved.rules,
      resolved.Ends rule.name ∨ (∀ name, lead name ≠ rule.name) ∧
        (rule.name ∈ names ∨ rule.name ∈ (grammar.removeProxies names).2) := by
  obtain ⟨lead, hleads, hsettled⟩ := exists_leads hn names (List.range grammar.rules.length)
  rw [h] at hleads hsettled
  refine ⟨lead, hleads, fun rule hm => ?_⟩
  obtain ⟨index, hi⟩ := List.getElem?_of_mem hm
  obtain ⟨rule', hi', hname⟩ := exists_of_names (names_of_resolved h) hi
  have hrange : index ∈ List.range grammar.rules.length :=
    List.mem_range.mpr (List.getElem?_eq_some_iff.mp hi').1
  rcases hname ▸ hsettled index hrange rule' hi' with hends | ⟨hne, hgo⟩
  · exact Or.inl hends
  · exact Or.inr ⟨hne, hgo.imp_right fun hr => (mem_removed_iff h).mpr ⟨index, rule, hi, hr, rfl⟩⟩

/-- What is named without proxies is no rule that was removed, and is declared if all that was named
before was so. -/
theorem declared_removeProxies (hn : (grammar.rules.map (·.name)).Nodup)
    (hr : ∀ rule ∈ grammar.rules, ∀ name ∈ rule.expr.refs,
      ∃ id, grammar.ruleIndex? name = some id)
    (h : grammar.resolveProxies names (List.range grammar.rules.length) = (resolved, removable))
    (hl : Leads lead grammar resolved) {rule : Rule}
    (hm : rule ∈ (grammar.removeProxies names).1.rules) (hname : name ∈ rule.expr.refs) :
    name ∉ (grammar.removeProxies names).2 ∧
      ∃ id, (grammar.removeProxies names).1.ruleIndex? name = some id := by
  have hused : ¬ resolved.Unused name :=
    fun hu => hu rule ((mem_rules_removeProxies hn h).mp hm).1 hname
  have hstays : name ∉ (grammar.removeProxies names).2 :=
    fun hgone => hused (unused_of_removed h hgone).2
  refine ⟨hstays, ?_⟩
  obtain ⟨before, hbefore, hname'⟩ := not_unused_iff.mp (mt hl.unused hused)
  obtain ⟨id, hid⟩ := hr before hbefore name hname'
  rw [← ruleIndex?_of_names (names_of_resolved h)] at hid
  obtain ⟨found, hf, rfl, -⟩ := rule?_of_ruleIndex? hid
  refine exists_ruleIndex?_iff.mpr (List.find?_isSome.mpr ⟨found, ?_, beq_self_eq_true _⟩)
  exact (mem_rules_removeProxies hn h).mpr ⟨List.mem_of_getElem? hf, hstays⟩

end Removal

/-- Chains end where references are led to, as no reference leads to a proxy in the end. -/
theorem Leads.eq_of_leadsTo (h : Leads lead grammar grammar')
    (hsettled : ∀ rule ∈ grammar'.rules,
      grammar'.Ends rule.name ∨ ∀ name, lead name ≠ rule.name)
    (hl : grammar.LeadsTo name stop) : lead name = stop := by
  obtain ⟨hchain, -⟩ := h.chains name stop hl
  rcases hchain.cases_head with hsame | ⟨target, hp, -⟩
  · exact hsame
  · obtain ⟨rule, hr, -⟩ := id hp
    have hname := name_of_rule? hr
    rcases hsettled rule (List.mem_of_find?_eq_some hr) with hends | hne
    · exact absurd (hname ▸ hends) hp.not_ends
    · exact absurd hname.symm (hne name)

theorem Unused.redirect_eq (h : grammar.Unused old) (new : String) :
    grammar.redirect old new = grammar := by
  rw [redirect_eq_rename]
  exact rename_of_fixed fun rule hm name hn => past_of_ne fun he => h rule hm (he ▸ hn)

/-- A grammar stays as it is if parsing may start from its proxies and nothing refers to them. -/
theorem removeProxies_eq_self {names : List String}
    (h : ∀ rule ∈ grammar.rules, ∀ target, rule.proxyTarget? = some target →
      rule.name ∈ names ∧ grammar.Unused rule.name) :
    grammar.removeProxies names = (grammar, []) := by
  have hresolve (indices : List Nat) : grammar.resolveProxies names indices = (grammar, []) := by
    induction indices with
    | nil => rfl
    | cons index indices ih =>
      have hstays : grammar.isRemovable names index = false := by
        rw [← Bool.not_eq_true, isRemovable_iff]
        rintro ⟨proxy, target, hi, ht, hn⟩
        exact hn (h proxy (List.mem_of_getElem? hi) target ht).1
      have hsame : grammar.resolveProxy index = grammar := by
        rcases grammar.resolveProxy_cases index with ⟨hsame, -⟩ | ⟨proxy, target, hi, ht, hredirect⟩
        · exact hsame
        · rw [hredirect, (h proxy (List.mem_of_getElem? hi) target ht).2.redirect_eq]
      unfold resolveProxies
      rw [hsame, ih, hstays]
      rfl
  refine Prod.ext ?_ ?_
  · simp [removeProxies_eq (hresolve _)]
  · simp [names_of_removeProxies (hresolve _)]

theorem outcome_removeProxies (options : Options) (grammar : Grammar) :
    Pass.removeProxies.outcome options grammar =
      .ok (grammar.removeProxies (options.startRules grammar.firstRule?)).1 := by
  obtain ⟨notes, hrun⟩ := grammar.yields_removeProxies options #[]
  exact congrArg Prod.fst hrun

/-- Proxies leave no trace. Those are removed from which parsing may not start, all but the last
ones of loops, which come to refer to themselves. The rules that stay are in order and differ from
what they were in the names of rules that they refer to: where a chain of proxies led to a rule that
is none, that rule is named. No rule that was removed is named, and rules are declared that are.
Proxies that stay are rules from which parsing may start, and the pass changes nothing where it has
been. -/
theorem proxies_leave_no_trace (options : Options) (hn : (grammar.rules.map (·.name)).Nodup)
    (hr : ∀ rule ∈ grammar.rules, ∀ name ∈ rule.expr.refs,
      ∃ id, grammar.ruleIndex? name = some id) :
    ∃ (left : Grammar) (removed : List String) (lead : String → String),
      Pass.removeProxies.outcome options grammar = .ok left ∧
      left = { grammar with
        rules := (grammar.rules.filter fun rule => rule.name ∉ removed).map (Rule.rename lead) } ∧
      (∀ name, name ∈ removed ↔ name ∉ options.startRules grammar.firstRule? ∧
        (∃ target, grammar.Proxy name target) ∧
        ¬ grammar.Loops (grammar.NoLater · name) name) ∧
      (∀ name stop, grammar.LeadsTo name stop → lead name = stop) ∧
      (∀ rule ∈ left.rules, ∀ name ∈ rule.expr.refs,
        name ∉ removed ∧ ∃ id, left.ruleIndex? name = some id) ∧
      (∀ rule ∈ left.rules, ∀ target, rule.proxyTarget? = some target →
        rule.name ∈ options.startRules grammar.firstRule?) ∧
      Pass.removeProxies.outcome options left = .ok left := by
  rcases hresolve : grammar.resolveProxies (options.startRules grammar.firstRule?)
    (List.range grammar.rules.length) with ⟨resolved, removable⟩
  obtain ⟨lead, hleads, hsettled⟩ := exists_leads_removeProxies hn hresolve
  have hmem {rule : Rule} := @mem_rules_removeProxies _ _ _ _ hn hresolve rule
  -- A proxy that stays was settled by nothing leading to it, so parsing may start from it.
  have hproxies (rule : Rule)
      (hm : rule ∈ (grammar.removeProxies (options.startRules grammar.firstRule?)).1.rules)
      (target : String) (ht : rule.proxyTarget? = some target) :
      (∀ name, lead name ≠ rule.name) ∧ rule.name ∈ options.startRules grammar.firstRule? := by
    obtain ⟨hm, hstays⟩ := hmem.mp hm
    have hproxy : resolved.Proxy rule.name target :=
      ⟨rule, rule?_of_mem (names_of_resolved hresolve ▸ hn) hm, ht⟩
    obtain ⟨hne, hgo⟩ := (hsettled rule hm).resolve_left hproxy.not_ends
    exact ⟨hne, hgo.resolve_right hstays⟩
  refine ⟨_, _, lead, outcome_removeProxies options grammar, ?_,
    fun name => mem_removed_iff_proxy hn hresolve, fun name stop hl => ?_,
    fun rule hm name => declared_removeProxies hn hr hresolve hleads hm,
    fun rule hm target ht => (hproxies rule hm target ht).2, ?_⟩
  · rw [rules_removeProxies hn hresolve, hleads.renamed]
    unfold rename
    rw [List.filter_map]
    rfl
  · exact hleads.eq_of_leadsTo (fun rule hm => (hsettled rule hm).imp_right And.left) hl
  · rw [outcome_removeProxies, startRules_removeProxies,
      removeProxies_eq_self fun rule hm target ht => ?_]
    obtain ⟨hne, hstays⟩ := hproxies rule hm target ht
    exact ⟨hstays, fun found hm' => hleads.unused_of_ne hne found (hmem.mp hm').1⟩

/-- Proxies of proxies, and proxies that only lead to each other. -/
def loopedGrammar : Grammar where
  initializer := none
  rules := [
    ⟨"start", .choice .none [.ruleRef .none "loop",
      .sequence .none [.ruleRef .none "first", .literal .none ⟨"c", false⟩]], .none⟩,
    ⟨"first", .ruleRef .none "second", .none⟩,
    ⟨"second", .ruleRef .none "word", .none⟩,
    ⟨"word", .literal .none ⟨"a", false⟩, .none⟩,
    ⟨"loop", .ruleRef .none "back", .none⟩,
    ⟨"back", .ruleRef .none "loop", .none⟩]
  span := .none

theorem proxies_leave_no_trace_looped :
    (loopedGrammar.rules.map (·.name)).Nodup ∧ loopedGrammar.undefinedRule? = none ∧
    ∃ (left : Grammar) (lead : String → String), lead "first" = "word" ∧
      Pass.removeProxies.outcome chainedOptions loopedGrammar = .ok left ∧
      Pass.removeProxies.outcome chainedOptions left = .ok left := by
  have hn : (loopedGrammar.rules.map (·.name)).Nodup := by decide
  have hr : loopedGrammar.undefinedRule? = none := by decide +kernel
  obtain ⟨left, removed, lead, hleft, -, -, hends, -, -, hagain⟩ :=
    proxies_leave_no_trace chainedOptions hn (undefinedRule?_eq_none_iff.mp hr)
  refine ⟨hn, hr, left, lead, hends "first" "word" ⟨?_, ?_⟩, hleft, hagain⟩
  · have hfirst : loopedGrammar.Proxy "first" "second" := ⟨_, rfl, rfl⟩
    have hsecond : loopedGrammar.Proxy "second" "word" := ⟨_, rfl, rfl⟩
    exact .head hfirst (.single hsecond)
  · exact ⟨_, rfl, rfl⟩

end Grammar
end Peg
