import Mathlib.Logic.Relation
import Peg.Grammar.Encoding
import Peg.Proofs.Subterms

/-!
The JSON form of a grammar and its variants. Reading what was written gives the tree back, and so
does reading any value that arises from it by edits that a reader does not notice: members added
under names that are not used, and members left out that hold their default, in any object at any
depth.
-/
namespace Peg

namespace Json

variable {α : Type}

theorem required_object (name : String) (read : Json → Option α) (fields : List (String × Json)) :
    required name read (.object fields) = (fields.lookup name).bind read := rfl

theorem fieldOr_object (name : String) (read : Json → Option α) (default : α)
    (fields : List (String × Json)) :
    fieldOr name read default (.object fields) =
      (fields.lookup name).elim (some default) read := by
  simp only [fieldOr, field?]
  cases fields.lookup name <;> rfl

theorem asWord?_nat {n : Nat} (h : n < 0x10000000000000000) : asWord? (.nat n) = some n :=
  if_pos h

/-- What is written item by item is read item by item. -/
theorem mapM_map_eq_some {items : List α} {write : α → Json} {read : Json → Option α}
    (h : ∀ item ∈ items, read (write item) = some item) :
    (items.map write).mapM read = some items := by
  induction items with
  | nil => rfl
  | cons item items ih =>
    rw [List.forall_mem_cons] at h
    rw [List.map_cons, List.mapM_cons, h.1, ih h.2]
    rfl

end Json

/-! ## What was written is read back -/

def Position.Fits (p : Position) : Prop :=
  p.offset < 0x10000000000000000 ∧ p.line < 0x10000000000000000 ∧ p.column < 0x10000000000000000

instance (p : Position) : Decidable p.Fits :=
  inferInstanceAs (Decidable (_ ∧ _ ∧ _))

def Span.Fits (s : Span) : Prop := s.start.Fits ∧ s.stop.Fits

instance (s : Span) : Decidable s.Fits :=
  inferInstanceAs (Decidable (_ ∧ _))

/-- The numbers of all spans of the grammar fit a machine word of 64 bits. -/
structure Grammar.Fits (g : Grammar) : Prop where
  span : g.span.Fits
  initializer : ∀ i ∈ g.initializer, i.span.Fits
  rules : ∀ rule ∈ g.rules, rule.span.Fits
  parts : ∀ rule ∈ g.rules, ∀ part ∈ rule.expr.subterms, part.span.Fits

theorem Position.ofJson?_toJson {p : Position} (h : p.Fits) : ofJson? p.toJson = some p := by
  obtain ⟨ho, hl, hc⟩ := h
  simp [ofJson?, toJson, Json.required_object, List.lookup_cons, Json.asWord?_nat ho,
    Json.asWord?_nat hl, Json.asWord?_nat hc]

theorem Span.ofJson?_toJson {s : Span} (h : s.Fits) : ofJson? s.toJson = some s := by
  simp [ofJson?, toJson, Json.required_object, List.lookup_cons, Position.ofJson?_toJson h.1,
    Position.ofJson?_toJson h.2]

/-- A written span is read back wherever it stands among the members. -/
theorem Span.field?_location {s : Span} (h : s.Fits) {fields : List (String × Json)}
    (hl : fields.lookup "location" = some s.toJson) : field? (.object fields) = some s := by
  rw [field?, Json.fieldOr_object, hl]
  exact ofJson?_toJson h

theorem ClassPart.ofJson?_toJson (part : ClassPart) : ofJson? part.toJson = some part := by
  cases part <;> simp [toJson, ofJson?, charOfJson?, Json.asString?, Char.toString]

theorem Wrapper.ofJson?_kindName {wrapper : Wrapper} {fields : List (String × Json)}
    (h : ∀ field ∈ wrapper.members, fields.lookup field.1 = some field.2) :
    ofJson? wrapper.kindName (.object fields) = some wrapper := by
  cases wrapper with
  | labeled _ | named _ | action _ =>
    simp only [members, List.forall_mem_singleton] at h
    simp [kindName, ofJson?, Json.required_object, h, Json.asString?]
  | _ => rfl

namespace Expr

theorem allOfJson?_eq_mapM (items : List Json) : allOfJson? items = items.mapM ofJson? := by
  induction items with
  | nil => rfl
  | cons item items ih => rw [allOfJson?, List.mapM_cons, ih]

theorem allToJson_eq_map (es : List Expr) : allToJson es = es.map toJson := by
  induction es with
  | nil => rfl
  | cons e es ih => rw [allToJson, List.map_cons, ih, toJson]

theorem bodyOfMembers?_eq_lookup (fields : List (String × Json)) :
    bodyOfMembers? fields = (fields.lookup "expression").bind ofJson? := by
  induction fields with
  | nil => rfl
  | cons field fields ih =>
    obtain ⟨name, value⟩ := field
    rw [bodyOfMembers?, List.lookup_cons]
    by_cases hn : name = "expression"
    · subst hn
      rfl
    · rw [if_neg hn, beq_false_of_ne (Ne.symm hn), ih]

theorem partsOfMembers?_eq_lookup (key : String) (fields : List (String × Json)) :
    partsOfMembers? key fields =
      (fields.lookup key).bind fun parts => parts.asArray?.bind (·.mapM ofJson?) := by
  induction fields with
  | nil => rfl
  | cons field fields ih =>
    obtain ⟨name, value⟩ := field
    rw [partsOfMembers?, List.lookup_cons]
    by_cases hn : name = key
    · cases value <;> simp [hn, partsOfJson?, Json.asArray?, allOfJson?_eq_mapM]
    · rw [if_neg hn, beq_false_of_ne (Ne.symm hn), ih]

def ofMembers? (kind : String) (span : Span) (fields : List (String × Json)) : Option Expr :=
  match kind with
  | "sequence" => (partsOfMembers? "elements" fields).map (sequence span)
  | "choice" => (partsOfMembers? "alternatives" fields).map (choice span)
  | kind =>
    match leafOfJson? kind span (.object fields) with
    | some leaf => some leaf
    | none => do
      let wrapper ← Wrapper.ofJson? kind (.object fields)
      let body ← bodyOfMembers? fields
      return wrapped span wrapper body

theorem ofJson?_object (fields : List (String × Json)) :
    ofJson? (.object fields) =
      ((fields.lookup "type").bind kindOfJson?).bind fun kind =>
        (Span.field? (.object fields)).bind fun span => ofMembers? kind span fields := by
  rw [ofJson?]
  rfl

theorem ofMembers?_wrapper (wrapper : Wrapper) (span : Span) (fields : List (String × Json)) :
    ofMembers? wrapper.kindName span fields =
      (Wrapper.ofJson? wrapper.kindName (.object fields)).bind fun wrapper =>
        (bodyOfMembers? fields).bind fun body => some (wrapped span wrapper body) := by
  cases wrapper <;> rfl

/-- No kind of expression has a member called `location` of its own. -/
theorem lookup_location_members (e : Expr) : e.members.lookup "location" = none := by
  cases e with
  | wrapped span wrapper body => cases wrapper <;> simp [members, Wrapper.members, List.lookup_cons]
  | _ => simp [members, CharClass.members, List.lookup_cons]

def allMembers (e : Expr) : List (String × Json) :=
  ("type", .string e.kindName) :: (e.members ++ [("location", e.span.toJson)])

theorem lookup_allMembers_wrapped {span : Span} {wrapper : Wrapper} {body : Expr}
    {field : String × Json} (h : field ∈ wrapper.members) :
    (wrapped span wrapper body).allMembers.lookup field.1 = some field.2 := by
  cases wrapper with
  | labeled _ | named _ | action _ =>
    cases List.mem_singleton.mp h
    rfl
  | _ => cases h

/-- Reading an object as it is written comes down to reading the members of its kind. -/
theorem ofJson?_toJson_eq {e : Expr} (hs : e.span.Fits) :
    ofJson? e.toJson = ofMembers? e.kindName e.span e.allMembers := by
  have hl : e.allMembers.lookup "location" = some e.span.toJson := by
    simp [allMembers, List.lookup_cons, List.lookup_append, lookup_location_members]
  rw [toJson, node, ← allMembers, ofJson?_object, Span.field?_location hs hl]
  rfl

theorem ofJson?_toJson {e : Expr} (h : ∀ part ∈ e.subterms, part.span.Fits) :
    ofJson? e.toJson = some e := by
  have hspan : e.span.Fits := h e (mem_subterms_self e)
  induction e using Expr.induct with
  | literal span lit | any span | ruleRef span name =>
    rw [ofJson?_toJson_eq hspan]
    simp [ofMembers?, leafOfJson?, kindName, allMembers, members, Json.required_object,
      Json.fieldOr_object, List.lookup_cons, Json.asString?, Json.asBool?, Expr.span]
  | charClass span cls =>
    have hparts : (cls.parts.map ClassPart.toJson).mapM ClassPart.ofJson? = some cls.parts :=
      Json.mapM_map_eq_some fun part _ => part.ofJson?_toJson
    rw [ofJson?_toJson_eq hspan]
    simp [ofMembers?, leafOfJson?, kindName, allMembers, members, CharClass.members,
      Json.required_object, Json.fieldOr_object, List.lookup_cons, Json.asArray?, Json.asBool?,
      Expr.span, hparts]
  | predicate span negated code =>
    rw [ofJson?_toJson_eq hspan]
    cases negated <;> simp [ofMembers?, leafOfJson?, kindName, allMembers, members,
      Json.required_object, List.lookup_cons, Json.asString?, Expr.span]
  | sequence span elements ih | choice span elements ih =>
    rw [subterms, List.forall_mem_cons, forall_mem_subtermsOfAll] at h
    have hparts := Json.mapM_map_eq_some fun e he =>
      ih e he (h.2 e he) (h.2 e he e (mem_subterms_self e))
    rw [ofJson?_toJson_eq hspan]
    simp [ofMembers?, kindName, allMembers, members, partsOfMembers?_eq_lookup, List.lookup_cons,
      Json.asArray?, allToJson_eq_map, hparts, Expr.span]
  | wrapped span wrapper body ih =>
    rw [subterms, List.forall_mem_cons] at h
    have hbody := ih h.2 (h.2 body (mem_subterms_self body))
    let fields := (wrapped span wrapper body).allMembers
    have hw : Wrapper.ofJson? wrapper.kindName (.object fields) = some wrapper :=
      Wrapper.ofJson?_kindName fun field hf => lookup_allMembers_wrapped hf
    have hl : fields.lookup "expression" = some body.toJson := rfl
    rw [ofJson?_toJson_eq hspan, kindName, ofMembers?_wrapper, hw, bodyOfMembers?_eq_lookup, hl]
    simp [hbody, Expr.span]

end Expr

theorem Initializer.ofJson?_toJson {i : Initializer} (h : i.span.Fits) :
    ofJson? i.toJson = some i := by
  have hs : Span.field? i.toJson = some i.span := Span.field?_location h rfl
  rw [ofJson?, hs]
  rfl

theorem Rule.ofJson?_toJson {rule : Rule} (h : rule.span.Fits)
    (hparts : ∀ part ∈ rule.expr.subterms, part.span.Fits) :
    ofJson? rule.toJson = some rule := by
  have hs : Span.field? rule.toJson = some rule.span := Span.field?_location h rfl
  have he : rule.toJson.required "expression" Expr.ofJson? = some rule.expr :=
    Expr.ofJson?_toJson hparts
  rw [ofJson?, hs, he]
  rfl

namespace Grammar

def initializerOfJson? : Json → Option (Option Initializer)
  | .null => some none
  | value => (Initializer.ofJson? value).map some

theorem ofJson?_object (fields : List (String × Json)) :
    ofJson? (.object fields) =
      ((fields.lookup "initializer").elim (some none) initializerOfJson?).bind fun initializer =>
        ((fields.lookup "rules").bind fun rules =>
            rules.asArray?.bind (·.mapM Rule.ofJson?)).bind fun rules =>
          (Span.field? (.object fields)).bind fun span => some ⟨initializer, rules, span⟩ := by
  rw [ofJson?, Json.fieldOr_object]
  rfl

theorem ofJson?_toJson {g : Grammar} (h : g.Fits) : ofJson? g.toJson = some g := by
  have hrules := Json.mapM_map_eq_some fun rule hr =>
    Rule.ofJson?_toJson (h.rules rule hr) (h.parts rule hr)
  obtain ⟨initializer, rules, span⟩ := g
  cases initializer with
  | none =>
    rw [toJson, ofJson?_object, Span.field?_location h.span rfl]
    simp [List.lookup_cons, Json.asArray?, hrules]
  | some i =>
    have hi : initializerOfJson? i.toJson = some (some i) :=
      congrArg (Option.map some) (Initializer.ofJson?_toJson (h.initializer i rfl))
    rw [toJson, ofJson?_object, Span.field?_location h.span rfl]
    simp [List.lookup_cons, Json.asArray?, hrules, hi]

end Grammar

/-! ## Edits that no reader notices -/

inductive Form where
  | position
  | span
  | initializer
  | rule
  | grammar
  | expression

namespace Form

abbrev Value : Form → Type
  | position => Position
  | span => Span
  | initializer => Initializer
  | rule => Rule
  | grammar => Grammar
  | expression => Expr

def decode : (form : Form) → Json → Option form.Value
  | position => Position.ofJson?
  | span => Span.ofJson?
  | initializer => Initializer.ofJson?
  | rule => Rule.ofJson?
  | grammar => Grammar.ofJson?
  | expression => Expr.ofJson?

/-- The names that an expression of kind `kind` uses besides `type` and `location`. -/
def kindNames (kind : String) : List String :=
  match kind with
  | "literal" => ["value", "ignoreCase"]
  | "class" => ["parts", "inverted", "ignoreCase"]
  | "any" => []
  | "rule_ref" => ["name"]
  | "sequence" => ["elements"]
  | "choice" => ["alternatives"]
  | "labeled" => ["label", "expression"]
  | "named" => ["name", "expression"]
  | "action" => ["expression", "code"]
  | "semantic_and" | "semantic_not" => ["code"]
  | _ => ["expression"]

/-- The names that an object of the form uses, whether or not it has members called so. For an
expression they depend on its kind. -/
def names (form : Form) (fields : List (String × Json)) : List String :=
  match form with
  | position => ["offset", "line", "column"]
  | span => ["start", "end"]
  | initializer => ["code", "location"]
  | rule => ["name", "expression", "location"]
  | grammar => ["initializer", "rules", "location"]
  | expression =>
    "type" :: "location" :: ((fields.lookup "type").bind Expr.kindOfJson?).elim [] kindNames

/-- What stands under a name. No two forms use one name for different things that hold objects. -/
inductive Content where
  /-- No object that a reader looks into. -/
  | plain
  | one (form : Form)
  /-- An array of objects. -/
  | many (form : Form)

def content : String → Content
  | "start" | "end" => .one position
  | "location" => .one span
  | "initializer" => .one initializer
  | "expression" => .one expression
  | "rules" => .many rule
  | "elements" | "alternatives" => .many expression
  | _ => .plain

/-- The member may be left out, because it holds what a reader takes when there is none. -/
def Default : String → Json → Prop
  | "location", value => Span.ofJson? value = some .none
  | "ignoreCase", value | "inverted", value => value = .bool false
  | "initializer", value => value = .null
  | _, _ => False

inductive Edit : Form → Json → Json → Prop where
  /-- A member is added under a name that the object does not use. -/
  | add {form : Form} {front back : List (String × Json)} {name : String} (value : Json) :
    name ∉ form.names (front ++ back) →
    Edit form (.object (front ++ back)) (.object (front ++ (name, value) :: back))
  /-- The only member of a name is left out, which holds its default. -/
  | drop {form : Form} {front back : List (String × Json)} {name : String} {value : Json} :
    Default name value → (front ++ back).lookup name = none →
    Edit form (.object (front ++ (name, value) :: back)) (.object (front ++ back))
  /-- A member that holds an object is edited. -/
  | member {form inner : Form} {front back : List (String × Json)} {name : String}
    {value value' : Json} :
    content name = .one inner → Edit inner value value' →
    Edit form (.object (front ++ (name, value) :: back))
      (.object (front ++ (name, value') :: back))
  /-- An object in an array is edited. -/
  | item {form inner : Form} {front back : List (String × Json)} {name : String}
    {before after : List Json} {value value' : Json} :
    content name = .many inner → Edit inner value value' →
    Edit form (.object (front ++ (name, .array (before ++ value :: after)) :: back))
      (.object (front ++ (name, .array (before ++ value' :: after)) :: back))

/-- The second value arises from the first by edits, made or undone, in any number and order. -/
def Variant (form : Form) : Json → Json → Prop := Relation.EqvGen form.Edit

inductive Alike (name : String) : Option Json → Option Json → Prop where
  | same (value : Option Json) : Alike name value value
  | dropped {value : Json} : Default name value → Alike name (some value) none
  | member {inner : Form} {fields fields' : List (String × Json)} :
    content name = .one inner →
    inner.decode (.object fields) = inner.decode (.object fields') →
    Alike name (some (.object fields)) (some (.object fields'))
  | item {inner : Form} {before after : List Json} {value value' : Json} :
    content name = .many inner → inner.decode value = inner.decode value' →
    Alike name (some (.array (before ++ value :: after)))
      (some (.array (before ++ value' :: after)))

def AlikeOn (names : List String) (fields fields' : List (String × Json)) : Prop :=
  ∀ name ∈ names, Alike name (fields.lookup name) (fields'.lookup name)

section

variable {name : String} {value value' : Option Json}

theorem Alike.eq (h : Alike name value value') (hc : content name = .plain)
    (hd : ∀ v, ¬ Default name v) : value = value' := by
  cases h with
  | same => rfl
  | dropped hv => exact absurd hv (hd _)
  | member hm => cases hc.symm.trans hm
  | item hm => cases hc.symm.trans hm

theorem Alike.bind_decode {inner : Form} (h : Alike name value value')
    (hc : content name = .one inner) (hd : ∀ v, ¬ Default name v) :
    value.bind inner.decode = value'.bind inner.decode := by
  cases h with
  | same => rfl
  | dropped hv => exact absurd hv (hd _)
  | member hm heq =>
    cases hc.symm.trans hm
    exact heq
  | item hm => cases hc.symm.trans hm

theorem Alike.bind_items {inner : Form} (h : Alike name value value')
    (hc : content name = .many inner) (hd : ∀ v, ¬ Default name v) :
    (value.bind fun items => items.asArray?.bind (·.mapM inner.decode)) =
      value'.bind fun items => items.asArray?.bind (·.mapM inner.decode) := by
  cases h with
  | same => rfl
  | dropped hv => exact absurd hv (hd _)
  | member hm => cases hc.symm.trans hm
  | item hm heq =>
    cases hc.symm.trans hm
    simp only [Option.bind_some, Json.asArray?, List.mapM_append, List.mapM_cons, heq]

/-- A member that a reader may miss reads the same, when its default reads as no member does. -/
theorem Alike.elim_read {α : Type} {read : Json → Option α} {default : Option α}
    (h : Alike name value value') (hd : ∀ v, Default name v → read v = default)
    (hm : ∀ inner fields fields', content name = .one inner →
      inner.decode (.object fields) = inner.decode (.object fields') →
      read (.object fields) = read (.object fields'))
    (hi : ∀ inner, content name ≠ .many inner) :
    value.elim default read = value'.elim default read := by
  cases h with
  | same => rfl
  | dropped hv => exact hd _ hv
  | member hc heq => exact hm _ _ _ hc heq
  | item hc => exact absurd hc (hi _)

end

section

variable {fields fields' : List (String × Json)}

theorem field?_alike
    (h : Alike "location" (fields.lookup "location") (fields'.lookup "location")) :
    Span.field? (.object fields) = Span.field? (.object fields') := by
  simp only [Span.field?, Json.fieldOr_object]
  refine h.elim_read (fun v hv => hv) (fun inner v v' hc heq => ?_) (fun inner hc => nomatch hc)
  cases hc
  exact heq

theorem flag_alike {name : String} (h : Alike name (fields.lookup name) (fields'.lookup name))
    (hc : content name = .plain) (hd : ∀ v, Default name v → v = .bool false) :
    Json.fieldOr name Json.asBool? false (.object fields) =
      Json.fieldOr name Json.asBool? false (.object fields') := by
  simp only [Json.fieldOr_object]
  refine h.elim_read (fun v hv => ?_) (fun inner v v' hm => ?_) (fun inner hm => ?_)
  · rw [hd v hv]
    rfl
  · cases hc.symm.trans hm
  · cases hc.symm.trans hm

theorem initializer_alike
    (h : Alike "initializer" (fields.lookup "initializer") (fields'.lookup "initializer")) :
    (fields.lookup "initializer").elim (some none) Grammar.initializerOfJson? =
      (fields'.lookup "initializer").elim (some none) Grammar.initializerOfJson? := by
  refine h.elim_read ?_ (fun inner v v' hc heq => ?_) (fun inner hc => nomatch hc)
  · rintro v rfl
    rfl
  · cases hc
    exact congrArg (Option.map some) heq

theorem leafOfJson?_alike {kind : String} (span : Span)
    (h : AlikeOn (kindNames kind) fields fields') :
    Expr.leafOfJson? kind span (.object fields) = Expr.leafOfJson? kind span (.object fields') := by
  unfold Expr.leafOfJson?
  split
  · have hv := (h "value" (by decide)).eq rfl fun _ hv => hv
    have hi := flag_alike (h "ignoreCase" (by decide)) rfl fun _ hv => hv
    simp only [Json.required_object, hv, hi]
  · have hp := (h "parts" (by decide)).eq rfl fun _ hv => hv
    have hn := flag_alike (h "inverted" (by decide)) rfl fun _ hv => hv
    have hi := flag_alike (h "ignoreCase" (by decide)) rfl fun _ hv => hv
    simp only [Json.required_object, hp, hn, hi]
  · rfl
  · simp only [Json.required_object, (h "name" (by decide)).eq rfl fun _ hv => hv]
  · simp only [Json.required_object, (h "code" (by decide)).eq rfl fun _ hv => hv]
  · simp only [Json.required_object, (h "code" (by decide)).eq rfl fun _ hv => hv]
  · rfl

theorem wrapperOfJson?_alike {kind : String}
    (h : AlikeOn (kindNames kind) fields fields') :
    Wrapper.ofJson? kind (.object fields) = Wrapper.ofJson? kind (.object fields') := by
  unfold Wrapper.ofJson?
  split
  · simp only [Json.required_object, (h "label" (by decide)).eq rfl fun _ hv => hv]
  · simp only [Json.required_object, (h "name" (by decide)).eq rfl fun _ hv => hv]
  · simp only [Json.required_object, (h "code" (by decide)).eq rfl fun _ hv => hv]
  all_goals rfl

theorem expression_mem_kindNames {wrapper : Wrapper} {kind : String} {json : Json}
    (h : Wrapper.ofJson? kind json = some wrapper) : "expression" ∈ kindNames kind := by
  unfold Wrapper.ofJson? at h
  split at h
  all_goals first | decide | cases h

theorem ofMembers?_alike (kind : String) (span : Span)
    (h : AlikeOn (kindNames kind) fields fields') :
    Expr.ofMembers? kind span fields = Expr.ofMembers? kind span fields' := by
  unfold Expr.ofMembers?
  split
  · have hp := (h "elements" (by decide)).bind_items rfl fun _ hv => hv
    simp only [Expr.partsOfMembers?_eq_lookup]
    exact congrArg _ hp
  · have hp := (h "alternatives" (by decide)).bind_items rfl fun _ hv => hv
    simp only [Expr.partsOfMembers?_eq_lookup]
    exact congrArg _ hp
  · rw [leafOfJson?_alike span h, wrapperOfJson?_alike h]
    cases Expr.leafOfJson? kind span (.object fields') with
    | some leaf => rfl
    | none =>
      cases hw : Wrapper.ofJson? kind (.object fields') with
      | none => rfl
      | some wrapper =>
        have hb := (h "expression" (expression_mem_kindNames hw)).bind_decode rfl fun _ hv => hv
        simp only [Expr.bodyOfMembers?_eq_lookup]
        exact congrArg (fun body : Option Expr => body.bind _) hb

/-- Objects that have alike members under all names that are used denote the same. -/
theorem decode_eq_of_alike {form : Form}
    (h : AlikeOn (form.names fields) fields fields') :
    form.decode (.object fields) = form.decode (.object fields') := by
  cases form with
  | position =>
    simp only [AlikeOn, names, List.forall_mem_cons] at h
    obtain ⟨ho, hl, hc, -⟩ := h
    replace ho := ho.eq rfl fun _ hv => hv
    replace hl := hl.eq rfl fun _ hv => hv
    replace hc := hc.eq rfl fun _ hv => hv
    simp only [decode, Position.ofJson?, Json.required_object, ho, hl, hc]
  | span =>
    simp only [AlikeOn, names, List.forall_mem_cons] at h
    obtain ⟨hs, he, -⟩ := h
    replace hs := hs.bind_decode rfl fun _ hv => hv
    replace he := he.bind_decode rfl fun _ hv => hv
    simp only [decode] at hs he
    simp only [decode, Span.ofJson?, Json.required_object, hs, he]
  | initializer =>
    simp only [AlikeOn, names, List.forall_mem_cons] at h
    obtain ⟨hc, hl, -⟩ := h
    replace hc := hc.eq rfl fun _ hv => hv
    simp only [decode, Initializer.ofJson?, Json.required_object, hc, field?_alike hl]
  | rule =>
    simp only [AlikeOn, names, List.forall_mem_cons] at h
    obtain ⟨hn, he, hl, -⟩ := h
    replace hn := hn.eq rfl fun _ hv => hv
    replace he := he.bind_decode rfl fun _ hv => hv
    simp only [decode] at he
    simp only [decode, Rule.ofJson?, Json.required_object, hn, he, field?_alike hl]
  | grammar =>
    simp only [AlikeOn, names, List.forall_mem_cons] at h
    obtain ⟨hi, hr, hl, -⟩ := h
    replace hi := initializer_alike hi
    replace hr := hr.bind_items rfl fun _ hv => hv
    simp only [decode] at hr
    simp only [decode, Grammar.ofJson?_object, hi, hr, field?_alike hl]
  | expression =>
    simp only [AlikeOn, names, List.forall_mem_cons] at h
    obtain ⟨ht, hl, hk⟩ := h
    replace ht := ht.eq rfl fun _ hv => hv
    simp only [decode, Expr.ofJson?_object, ← ht, field?_alike hl]
    cases hkind : (fields.lookup "type").bind Expr.kindOfJson? with
    | none => rfl
    | some kind =>
      rw [hkind] at hk
      have hmembers (span : Span) := ofMembers?_alike kind span hk
      simp only [Option.bind_some, hmembers]

end

theorem lookup_insert_of_ne {name : String} {entry : String × Json} (h : name ≠ entry.1)
    (front back : List (String × Json)) :
    (front ++ entry :: back).lookup name = (front ++ back).lookup name := by
  rw [List.lookup_append, List.lookup_append, List.lookup_cons, beq_false_of_ne h]

/-- Only the name of a member that is replaced may read differently. -/
theorem alike_replace {name : String} {value value' : Json}
    (h : Alike name (some value) (some value')) (front back : List (String × Json))
    (other : String) :
    Alike other ((front ++ (name, value) :: back).lookup other)
      ((front ++ (name, value') :: back).lookup other) := by
  by_cases hn : other = name
  · subst hn
    simp only [List.lookup_append, List.lookup_cons_self]
    cases front.lookup other with
    | none => exact h
    | some first => exact .same _
  · rw [lookup_insert_of_ne hn, lookup_insert_of_ne hn]
    exact .same _

theorem Edit.exists_fields {form : Form} {json json' : Json} (h : Edit form json json') :
    ∃ fields fields', json = .object fields ∧ json' = .object fields' := by
  cases h <;> exact ⟨_, _, rfl, rfl⟩

/-- An edited object denotes what it denoted before. -/
theorem Edit.decode_eq {form : Form} {json json' : Json} (h : Edit form json json') :
    form.decode json = form.decode json' := by
  induction h with
  | @add form front back name value hn =>
    refine decode_eq_of_alike fun used hu => ?_
    have hne : used ≠ name := by
      rintro rfl
      exact hn hu
    rw [lookup_insert_of_ne hne]
    exact .same _
  | @drop form front back name value hv hn =>
    refine decode_eq_of_alike fun used _ => ?_
    by_cases hu : used = name
    · subst hu
      rw [List.lookup_append, Option.or_eq_none_iff] at hn
      rw [List.lookup_append, List.lookup_append, hn.1, hn.2, List.lookup_cons_self]
      exact .dropped hv
    · rw [lookup_insert_of_ne hu]
      exact .same _
  | member hc hedit ih =>
    obtain ⟨fields, fields', rfl, rfl⟩ := hedit.exists_fields
    exact decode_eq_of_alike fun used _ => alike_replace (.member hc ih) _ _ used
  | item hc _ ih =>
    exact decode_eq_of_alike fun used _ => alike_replace (.item hc ih) _ _ used

theorem Variant.decode_eq {form : Form} {json json' : Json} (h : Variant form json json') :
    form.decode json = form.decode json' := by
  induction h with
  | rel _ _ hedit => exact hedit.decode_eq
  | refl => rfl
  | symm _ _ _ ih => exact ih.symm
  | trans _ _ _ _ _ ih ih' => exact ih.trans ih'

end Form

namespace Grammar

/-- Whatever the grammar, it is read back from its JSON form, and from any variant of that. -/
theorem variants_read_back {g : Grammar} (h : g.Fits) :
    ofJson? g.toJson = some g ∧
      ∀ json, Form.Variant .grammar g.toJson json → ofJson? json = some g :=
  ⟨ofJson?_toJson h, fun _ hv => hv.decode_eq.symm.trans (ofJson?_toJson h)⟩

/-- A grammar with an initializer and a class that has parts of both forms. -/
def letters : Grammar :=
  ⟨some ⟨"let count = 0", .none⟩,
    [⟨"letter", .charClass .none ⟨[.single '_', .range 'a' 'z'], false, true⟩,
      ⟨.start, ⟨18, 1, 19⟩⟩⟩], .none⟩

/-- The JSON form of `letters`, by the members of its initializer and of its class. -/
def lettersJson (initializer letter : List (String × Json)) : Json :=
  .object [("initializer", .object initializer),
    ("rules", .array [.object [("name", .string "letter"), ("expression", .object letter),
      ("location", (⟨.start, ⟨18, 1, 19⟩⟩ : Span).toJson)]]),
    ("location", Span.none.toJson)]

theorem edit_letter (initializer : List (String × Json)) {letter letter' : List (String × Json)}
    (h : Form.Edit .expression (.object letter) (.object letter')) :
    Form.Edit .grammar (lettersJson initializer letter) (lettersJson initializer letter') :=
  @Form.Edit.item .grammar .rule [_] [_] "rules" [] [] _ _ rfl
    (@Form.Edit.member .rule .expression [_] [_] "expression" _ _ rfl h)

def letterParts : String × Json :=
  ("parts", .array [.string "_", .array [.string "a", .string "z"]])

/-- `letters` without the span of its initializer and the `inverted` flag of its class, which has
got a member that classes do not use. -/
def lettersVariant : Json :=
  lettersJson [("code", .string "let count = 0")]
    [("type", .string "class"), ("label", .number "1.5"), letterParts, ("ignoreCase", .bool true),
      ("location", Span.none.toJson)]

theorem variant_letters : Form.Variant .grammar letters.toJson lettersVariant := by
  have hspan : Form.Default "location" Span.none.toJson := Span.ofJson?_toJson (by decide)
  have hcode : Form.Edit .initializer _ _ :=
    @Form.Edit.drop .initializer [("code", .string "let count = 0")] [] "location" _ hspan rfl
  have hlabel : Form.Edit .expression _ _ :=
    @Form.Edit.add .expression [("type", .string "class")]
      [letterParts, ("inverted", .bool false), ("ignoreCase", .bool true),
        ("location", Span.none.toJson)] "label" (.number "1.5") (by decide)
  have hinverted : Form.Edit .expression _ _ :=
    @Form.Edit.drop .expression [("type", .string "class"), ("label", .number "1.5"), letterParts]
      [("ignoreCase", .bool true), ("location", Span.none.toJson)] "inverted" _ rfl rfl
  have hfirst : Form.Variant .grammar letters.toJson (lettersJson _ _) :=
    .rel _ _ (@Form.Edit.member .grammar .initializer [] [_, _] "initializer" _ _ rfl hcode)
  exact .trans _ _ _ (.trans _ _ _ hfirst (.rel _ _ (edit_letter _ hlabel)))
    (.rel _ _ (edit_letter _ hinverted))

/-- The variant of `letters` is read as `letters`. -/
theorem variants_read_back_letters :
    letters.Fits ∧ Form.Variant .grammar letters.toJson lettersVariant ∧
      ofJson? lettersVariant = some letters := by
  have hfits : letters.Fits := ⟨by decide, by decide, by decide, by decide⟩
  exact ⟨hfits, variant_letters, (variants_read_back hfits).2 lettersVariant variant_letters⟩

end Grammar

end Peg
