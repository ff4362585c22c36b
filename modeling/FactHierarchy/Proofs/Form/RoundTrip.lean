import FactHierarchy.Form.Configuration
import FactHierarchy.Form.Rule
import FactHierarchy.Proofs.Json.Record

/-!
# Terms, facts, rules and configurations as text

The JSON forms of terms, facts, vocabularies, rules and configurations are faithful, each because
the forms of its parts are. A record has different names for its fields, all of them have
well-formed values, and its reader puts what it reads from them together again
(`Json.faithful_record`).

So all of these forms go round as text (`forms_round_trip`), whatever characters are in them.
-/

set_option autoImplicit false

namespace FactHierarchy

open Json (Faithful faithful_str faithful_ofStringMap faithful_record str_ne_null)

/-! ## Terms and facts -/

theorem Node.faithful : Faithful Node.toJson Node.ofJson? where
  wellFormed
    | .iri text => Json.wellFormed_choice (Json.wellFormed_str text)
    | .blank label => Json.wellFormed_choice (Json.wellFormed_str label)
  read_eq
    | .iri _ => rfl
    | .blank _ => rfl

theorem Node.toJson_ne_null : ∀ n : Node, n.toJson ≠ .null
  | .iri _ => nofun
  | .blank _ => nofun

theorem Literal.faithful : Faithful Literal.toJson Literal.ofJson? := by
  refine faithful_record (fun _ => rfl) (by decide) (fun l => ?_) (fun l => ?_)
  · simp [faithful_str.wellFormed, (faithful_str.option str_ne_null).wellFormed]
  · simp [faithful_str.required, faithful_str.optional str_ne_null]

theorem Term.faithful : Faithful Term.toJson Term.ofJson? where
  wellFormed
    | .node n => Json.wellFormed_choice (Node.faithful.wellFormed n)
    | .literal l => Json.wellFormed_choice (Literal.faithful.wellFormed l)
  read_eq
    | .node n => congrArg (Option.map Term.node) (Node.faithful.read_eq n)
    | .literal l => congrArg (Option.map Term.literal) (Literal.faithful.read_eq l)

theorem Fact.faithful : Faithful Fact.toJson Fact.ofJson? := by
  refine faithful_record (fun _ => rfl) (by decide) (fun f => ?_) (fun f => ?_)
  · simp [Node.faithful.wellFormed, Term.faithful.wellFormed]
  · simp [Node.faithful.required, Term.faithful.required]

theorem PrefixTable.faithful : Faithful PrefixTable.toJson PrefixTable.ofJson? := by
  refine faithful_record (fun _ => rfl) (by decide) (fun ns => ?_) (fun ns => ?_)
  · simp [faithful_ofStringMap.wellFormed]
  · simp [faithful_ofStringMap.required]

theorem Vocabulary.faithful : Faithful Vocabulary.toJson Vocabulary.ofJson? := by
  refine faithful_record (fun _ => rfl) (by decide) (fun v => ?_) (fun v => ?_)
  · simp [faithful_str.wellFormed, Node.faithful.wellFormed]
  · simp [faithful_str.required, Node.faithful.required]

/-! ## Rules -/

theorem NameSource.faithful : Faithful NameSource.toJson NameSource.ofJson? where
  wellFormed
    | .fixed name => Json.wellFormed_choice (Json.wellFormed_str name)
    | .fromValue predicate => Json.wellFormed_choice (Node.faithful.wellFormed predicate)
    | .localName => Json.wellFormed_str "LocalName"
  read_eq
    | .fixed _ => rfl
    | .fromValue predicate =>
        congrArg (Option.map NameSource.fromValue) (Node.faithful.read_eq predicate)
    | .localName => rfl

theorem Selector.faithful : Faithful Selector.toJson Selector.ofJson? := by
  refine faithful_record (fun _ => rfl) (by decide) (fun s => ?_) (fun s => ?_)
  · simp [Node.faithful.wellFormed, Term.faithful.wellFormed]
  · simp [Node.faithful.required, Term.faithful.required]

theorem Relation.faithful : Faithful Relation.toJson Relation.ofJson? := by
  refine faithful_record (fun _ => rfl) (by decide) (fun r => ?_) (fun r => ?_)
  · simp [Node.faithful.wellFormed, NameSource.faithful.wellFormed]
  · simp [Node.faithful.required, NameSource.faithful.required]

theorem Rule.faithful : Faithful Rule.toJson Rule.ofJson? := by
  refine faithful_record (fun _ => rfl) (by decide) (fun r => ?_) (fun r => ?_)
  · simp [faithful_str.wellFormed, Selector.faithful.wellFormed, NameSource.faithful.wellFormed,
      Relation.faithful.list.wellFormed, (Node.faithful.option Node.toJson_ne_null).wellFormed]
  · simp [faithful_str.required, Selector.faithful.required, NameSource.faithful.required,
      Relation.faithful.list.required, Node.faithful.optional Node.toJson_ne_null]

/-! ## Configurations -/

theorem Engine.faithful : Faithful Engine.toJson Engine.ofJson? := by
  refine faithful_record (fun _ => rfl) (by decide) (fun e => ?_) (fun e => ?_)
  · simp [faithful_str.wellFormed]
  · simp [faithful_str.withDefault]

theorem NameSetting.faithful : Faithful NameSetting.toJson NameSetting.ofJson? where
  wellFormed
    | .fixed name => Json.wellFormed_choice (Json.wellFormed_str name)
    | .fromValue predicate => Json.wellFormed_choice (Json.wellFormed_str predicate)
    | .localName => Json.wellFormed_str "local_name"
  read_eq
    | .fixed _ => rfl
    | .fromValue _ => rfl
    | .localName => rfl

theorem SelectorSetting.faithful : Faithful SelectorSetting.toJson SelectorSetting.ofJson? := by
  refine faithful_record (fun _ => rfl) (by decide) (fun s => ?_) (fun s => ?_)
  · simp [faithful_str.wellFormed]
  · simp [faithful_str.required]

theorem RelationSetting.faithful : Faithful RelationSetting.toJson RelationSetting.ofJson? := by
  refine faithful_record (fun _ => rfl) (by decide) (fun r => ?_) (fun r => ?_)
  · simp [faithful_str.wellFormed, NameSetting.faithful.wellFormed]
  · simp [faithful_str.required, NameSetting.faithful.withDefault]

theorem RuleSetting.faithful : Faithful RuleSetting.toJson RuleSetting.ofJson? := by
  refine faithful_record (fun _ => rfl) (by decide) (fun r => ?_) (fun r => ?_)
  · simp [faithful_str.wellFormed, SelectorSetting.faithful.wellFormed,
      NameSetting.faithful.wellFormed, RelationSetting.faithful.list.wellFormed,
      (faithful_str.option str_ne_null).wellFormed]
  · simp [faithful_str.required, faithful_str.withDefault, SelectorSetting.faithful.required,
      NameSetting.faithful.withDefault, RelationSetting.faithful.list.withDefault,
      (faithful_str.option str_ne_null).withDefault]

theorem Configuration.faithful : Faithful Configuration.toJson Configuration.ofJson? := by
  refine faithful_record (fun _ => rfl) (by decide) (fun c => ?_) (fun c => ?_)
  · simp [Engine.faithful.wellFormed, faithful_ofStringMap.wellFormed,
      RuleSetting.faithful.list.wellFormed]
  · simp [Engine.faithful.withDefault, faithful_ofStringMap.withDefault,
      RuleSetting.faithful.list.withDefault]

/-! ## Texts -/

/-- **All these forms go round as text**: what is written for a value is read as this value, so
different values are written differently, and what is read from any text is read again from what is
written for it. -/
theorem forms_round_trip :
    Json.RoundTrips Fact.toJson Fact.ofJson? ∧
    Json.RoundTrips Term.toJson Term.ofJson? ∧
    Json.RoundTrips Literal.toJson Literal.ofJson? ∧
    Json.RoundTrips Node.toJson Node.ofJson? ∧
    Json.RoundTrips NameSource.toJson NameSource.ofJson? ∧
    Json.RoundTrips Rule.toJson Rule.ofJson? ∧
    Json.RoundTrips Configuration.toJson Configuration.ofJson? ∧
    Json.RoundTrips PrefixTable.toJson PrefixTable.ofJson? ∧
    Json.RoundTrips Vocabulary.toJson Vocabulary.ofJson? :=
  ⟨Fact.faithful.roundTrips, Term.faithful.roundTrips, Literal.faithful.roundTrips,
    Node.faithful.roundTrips, NameSource.faithful.roundTrips, Rule.faithful.roundTrips,
    Configuration.faithful.roundTrips, PrefixTable.faithful.roundTrips,
    Vocabulary.faithful.roundTrips⟩

-- An absent value is not the same as an empty one.
example : (Literal.toJson ⟨"5\"\n", none, some ""⟩).text =
    "\x7b\"lexical\":\"5\\\"\\n\",\"datatype\":null,\"language\":\"\"\x7d" := by
  decide +kernel

end FactHierarchy
