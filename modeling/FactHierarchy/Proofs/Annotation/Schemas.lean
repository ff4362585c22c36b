import FactHierarchy.Proofs.Run.Annotated

/-!
# Where property-schema nodes come from

A property-schema node is known by a property name and a rule, and subjects share it. A pass
describes it in the turn of each subject that has the property, by its name and by the predicate of
the relation that leads to it. What has been described in the turn of one subject is not described
again in it, so of several relations that lead a subject to one schema node only the first counts
(`Annotator.ComesFirst`).

Other subjects are not looked at. Where the first relation of one subject is not that of another,
the schema node gets a second source predicate (`Engine.sensors_disagree_on_source`). It has
exactly one if and only if all turns agree (`Engine.one_source_iff_turns_agree`).
-/

set_option autoImplicit false

namespace FactHierarchy

/-! ## Who describes a schema node -/

/-- **A relation leads a subject to a schema node**: it has a name for the subject, by which the
rule knows the schema node. -/
def Rule.LeadsToSchema (propertyNamespace : String) (r : Rule) (g : Graph) (subject : Node)
    (relation : Relation) (schema : Node) : Prop :=
  relation.nameSource.nameIn g subject ≠ "" ∧
    schema = propertyNode (relation.nameSource.nameIn g subject) r.id propertyNamespace

/-- **A rule gives a node a property by a predicate**: it selects the node, and of its property
relations that lead the node to the schema node the first one has this predicate. -/
structure Rule.GivesPropertyBy (propertyNamespace : String) (r : Rule) (g : Graph)
    (n schema predicate : Node) : Prop where
  selects : r.Selects g n
  first : ∃ before relation after, r.properties = before ++ relation :: after ∧
    relation.predicate = predicate ∧ r.LeadsToSchema propertyNamespace g n relation schema ∧
    ∀ earlier ∈ before, ¬r.LeadsToSchema propertyNamespace g n earlier schema

namespace Annotator

/-- **A predicate comes first for a schema node** among some relations of a subject: the relation
with this predicate leads there, in the graph that the acts for the relations before it have led to,
and these acts have not linked the subject to the schema node. -/
def ComesFirst (a : Annotator) (rule : Rule) (subject : Node) (relations : List Relation)
    (described : List Node) (g : Graph) (schema predicate : Node) : Prop :=
  ∃ before relation after, relations = before ++ relation :: after ∧
    relation.predicate = predicate ∧
    rule.LeadsToSchema a.propertyNamespace
      (Act.writeAll a (a.performedProperties rule subject before described g) g) subject relation
      schema ∧
    .link subject schema ∉ a.performedProperties rule subject before described g

/-- **The pass of a rule describes a schema node by a predicate**: the predicate comes first for it
when the pass goes through the properties of some subject. -/
def Describes (a : Annotator) (rule : Rule) (g : Graph) (schema predicate : Node) : Prop :=
  ∃ subject g', Act.Stretch a g (a.performedRule rule g) g'
      (a.performedProperties rule subject rule.properties [] g') ∧
    a.ComesFirst rule subject rule.properties [] g' schema predicate

end Annotator

/-! ## The acts that describe -/

/-- A member of a list is its first one, or it stands behind the first one. -/
theorem exists_append_cons_eq_cons {α : Type} {x : α} {xs : List α} {P : List α → α → Prop} :
    (∃ before y after, x :: xs = before ++ y :: after ∧ P before y) ↔
      P [] x ∨ ∃ before y after, xs = before ++ y :: after ∧ P (x :: before) y := by
  constructor
  · rintro ⟨before, y, after, heq, hP⟩
    cases before with
    | nil =>
        obtain ⟨rfl, -⟩ := List.cons.inj heq
        exact .inl hP
    | cons z before =>
        obtain ⟨rfl, hrest⟩ := List.cons.inj heq
        exact .inr ⟨before, y, after, hrest, hP⟩
  · rintro (hP | ⟨before, y, after, rfl, hP⟩)
    · exact ⟨[], x, xs, rfl, hP⟩
    · exact ⟨x :: before, y, after, rfl, hP⟩

namespace Annotator

/-- The acts for one property that has a name. -/
def schemaActs (subject schema : Node) (name : String) (predicate : Node)
    (described : List Node) : List Act :=
  (if schema ∈ described then [] else [.describe schema name predicate]) ++ [.link subject schema]

variable {a : Annotator} {rule : Rule} {subject schema predicate p p' s : Node} {name : String}
  {relation : Relation} {relations : List Relation} {described : List Node} {g : Graph}

theorem exists_describe_mem_schemaActs_iff :
    (∃ name', .describe schema name' predicate ∈ schemaActs subject s name p described) ↔
      s ∉ described ∧ schema = s ∧ predicate = p := by
  rw [schemaActs]
  split <;> simp [*]

theorem link_mem_schemaActs_iff :
    .link subject schema ∈ schemaActs subject s name p described ↔ schema = s := by
  rw [schemaActs]
  split <;> simp

theorem performedProperties_cons_of_unnamed (hname : relation.nameSource.nameIn g subject = "") :
    a.performedProperties rule subject (relation :: relations) described g =
      .leaveOut ⟨rule.id, subject, .property relation.predicate⟩ ::
        a.performedProperties rule subject relations described g := by
  rw [performedProperties, if_pos (String.isEmpty_iff.2 hname)]

theorem performedProperties_cons_of_leads
    (hleads : rule.LeadsToSchema a.propertyNamespace g subject relation s) :
    a.performedProperties rule subject (relation :: relations) described g =
      let acts := schemaActs subject s (relation.nameSource.nameIn g subject) relation.predicate
        described
      acts ++ a.performedProperties rule subject relations (s :: described)
        (Act.writeAll a acts g) := by
  obtain ⟨hname, rfl⟩ := hleads
  rw [performedProperties, if_neg (by rwa [String.isEmpty_iff])]
  rfl

theorem not_comesFirst_nil : ¬a.ComesFirst rule subject [] described g schema predicate := by
  rintro ⟨before, relation, after, heq, -⟩
  cases before <;> cases heq

/-- A relation without a name comes first for nothing. -/
theorem comesFirst_cons_of_unnamed (hname : relation.nameSource.nameIn g subject = "") :
    a.ComesFirst rule subject (relation :: relations) described g schema predicate ↔
      a.ComesFirst rule subject relations described g schema predicate := by
  rw [ComesFirst, exists_append_cons_eq_cons, or_iff_right fun h => h.2.1.1 hname]
  refine exists_congr fun before => exists_congr fun y => exists_congr fun after =>
    and_congr_right fun _ => and_congr_right fun _ => ?_
  rw [performedProperties_cons_of_unnamed hname, List.mem_cons, or_iff_right Act.noConfusion]
  rfl

/-- A relation with a name comes first for the schema node that it leads to, and for no other. -/
theorem comesFirst_cons_of_leads
    (hleads : rule.LeadsToSchema a.propertyNamespace g subject relation s) :
    a.ComesFirst rule subject (relation :: relations) described g schema predicate ↔
      schema = s ∧ predicate = relation.predicate ∨
      schema ≠ s ∧ a.ComesFirst rule subject relations (s :: described)
        (Act.writeAll a (schemaActs subject s (relation.nameSource.nameIn g subject)
          relation.predicate described) g) schema predicate := by
  rw [ComesFirst, exists_append_cons_eq_cons]
  refine or_congr ?_ ?_
  · constructor
    · rintro ⟨hpredicate, hleads', -⟩
      exact ⟨hleads'.2.trans hleads.2.symm, hpredicate.symm⟩
    · rintro ⟨rfl, hpredicate⟩
      exact ⟨hpredicate.symm, hleads, List.not_mem_nil⟩
  · simp only [performedProperties_cons_of_leads hleads, Act.writeAll_append, List.mem_append,
      link_mem_schemaActs_iff, not_or, ComesFirst]
    constructor
    · rintro ⟨before, y, after, heq, hpredicate, hleads', hne, hnew⟩
      exact ⟨hne, before, y, after, heq, hpredicate, hleads', hnew⟩
    · rintro ⟨hne, before, y, after, heq, hpredicate, hleads', hnew⟩
      exact ⟨before, y, after, heq, hpredicate, hleads', hne, hnew⟩

/-- **One predicate comes first for a schema node at most**, whatever relations lead there. -/
theorem ComesFirst.unique
    (h : a.ComesFirst rule subject relations described g schema p)
    (h' : a.ComesFirst rule subject relations described g schema p') : p = p' := by
  induction relations generalizing described g with
  | nil => exact absurd h not_comesFirst_nil
  | cons relation relations ih =>
      by_cases hname : relation.nameSource.nameIn g subject = ""
      · rw [comesFirst_cons_of_unnamed hname] at h h'
        exact ih h h'
      · rw [comesFirst_cons_of_leads ⟨hname, rfl⟩] at h h'
        rcases h with ⟨heq, rfl⟩ | ⟨hne, h⟩
        · rcases h' with ⟨-, rfl⟩ | ⟨hne, -⟩
          · rfl
          · exact absurd heq hne
        · rcases h' with ⟨heq, -⟩ | ⟨-, h'⟩
          · exact absurd heq hne
          · exact ih h h'

/-- **What comes first is described**, unless it has been described before. -/
theorem exists_describe_mem_performedProperties_iff :
    (∃ name, .describe schema name predicate ∈
        a.performedProperties rule subject relations described g) ↔
      schema ∉ described ∧ a.ComesFirst rule subject relations described g schema predicate := by
  induction relations generalizing described g with
  | nil =>
      refine iff_of_false ?_ fun h => not_comesFirst_nil h.2
      rintro ⟨name, hact⟩
      cases hact
  | cons relation relations ih =>
      by_cases hname : relation.nameSource.nameIn g subject = ""
      · rw [comesFirst_cons_of_unnamed hname, ← ih]
        refine exists_congr fun name => ?_
        rw [performedProperties_cons_of_unnamed hname, List.mem_cons,
          or_iff_right Act.noConfusion]
      · have hleads : rule.LeadsToSchema a.propertyNamespace g subject relation _ := ⟨hname, rfl⟩
        set s := propertyNode (relation.nameSource.nameIn g subject) rule.id a.propertyNamespace
        simp only [comesFirst_cons_of_leads hleads, performedProperties_cons_of_leads hleads,
          List.mem_append, exists_or, exists_describe_mem_schemaActs_iff, ih, List.mem_cons, not_or]
        constructor
        · rintro (⟨hnew, rfl, hpredicate⟩ | ⟨⟨hne, hnew⟩, hfirst⟩)
          · exact ⟨hnew, .inl ⟨rfl, hpredicate⟩⟩
          · exact ⟨hnew, .inr ⟨hne, hfirst⟩⟩
        · rintro ⟨hnew, ⟨rfl, hpredicate⟩ | ⟨hne, hfirst⟩⟩
          · exact .inl ⟨hnew, rfl, hpredicate⟩
          · exact .inr ⟨⟨hne, hnew⟩, hfirst⟩

/-- A subject describes what comes first among its relations. -/
theorem comesFirst_iff_exists_describe :
    a.ComesFirst rule subject relations [] g schema predicate ↔
      ∃ name, .describe schema name predicate ∈
        a.performedProperties rule subject relations [] g := by
  rw [exists_describe_mem_performedProperties_iff, and_iff_right List.not_mem_nil]

/-! ## The passes that describe -/

theorem describe_not_mem_performedChildren {parent : Node} {children : List Node}
    {names : TakenNames} :
    .describe schema name predicate ∉
      a.performedChildren rule parent relation children names g := by
  induction children generalizing names g with
  | nil => exact List.not_mem_nil
  | cons child children ih =>
      rw [performedChildren]
      split
      · simp [ih]
      · generalize names.claim (relation.nameSource.nameIn g child) = claimed
        obtain ⟨given, names⟩ := claimed
        simp [ih]

/-- A subject describes schema nodes when the pass goes through its properties. -/
theorem of_describe_mem_performedSubject
    (hact : .describe schema name predicate ∈ a.performedSubject rule subject g) :
    ∃ g', Act.Stretch a g (a.performedSubject rule subject g) g'
        (a.performedProperties rule subject rule.properties [] g') ∧
      .describe schema name predicate ∈
        a.performedProperties rule subject rule.properties [] g' := by
  rw [performedSubject] at hact ⊢
  split at hact
  · simp at hact
  · next hname =>
    rw [if_neg hname]
    dsimp only at hact ⊢
    set name := rule.nameSource.nameIn g subject
    set enrolled := a.annotateRoot subject name g
    set scopes := Act.inTurn a (a.performedScope rule subject) rule.children enrolled
    have hscopes : ∀ act ∈ scopes, ∀ schema name predicate,
        act ≠ .describe schema name predicate := by
      rintro act hact schema name predicate rfl
      obtain ⟨relation, -, g', -, hact⟩ := Act.exists_stretch_of_mem_inTurn hact
      exact describe_not_mem_performedChildren hact
    refine ⟨Act.writeAll a scopes enrolled, ⟨.enrol subject name :: scopes, [], ?_, rfl⟩, ?_⟩
    · rw [List.append_nil, List.cons_append]
    · have hact := (List.mem_cons.1 hact).resolve_left Act.noConfusion
      exact (List.mem_append.1 hact).resolve_left fun h => hscopes _ h _ _ _ rfl

/-- **A pass consists of acts that describe what it is said to describe.** -/
theorem exists_describe_mem_performedRule_iff :
    (∃ name, .describe schema name predicate ∈ a.performedRule rule g) ↔
      a.Describes rule g schema predicate := by
  constructor
  · rintro ⟨name, hact⟩
    obtain ⟨subject, -, g₁, hsubject, hact⟩ := Act.exists_stretch_of_mem_inTurn hact
    obtain ⟨g₂, hproperties, hact⟩ := of_describe_mem_performedSubject hact
    exact ⟨subject, g₂, hsubject.trans hproperties, comesFirst_iff_exists_describe.2 ⟨name, hact⟩⟩
  · rintro ⟨subject, g', hstretch, hfirst⟩
    obtain ⟨name, hact⟩ := comesFirst_iff_exists_describe.1 hfirst
    exact ⟨name, hstretch.subset hact⟩

/-! ## Rules that read raw facts -/

theorem link_mem_propertyActs_iff :
    .link subject schema ∈ a.propertyActs rule subject g relations described ↔
      ∃ relation ∈ relations,
        rule.LeadsToSchema a.propertyNamespace g subject relation schema := by
  constructor
  · intro hact
    obtain ⟨entry, heq⟩ | ⟨_, _, _, heq⟩ | ⟨relation, hrelation, hname, heq⟩ :=
      cases_of_mem_propertyActs hact
    · cases heq
    · cases heq
    · exact ⟨relation, hrelation, hname, (Act.link.inj heq).2⟩
  · rintro ⟨relation, hrelation, hname, rfl⟩
    exact link_mem_propertyActs hrelation hname

/-- Where the relations read raw facts, what comes first can be told from any graph with the same
raw facts. -/
theorem comesFirst_iff {g' : Graph}
    (hrelations : ∀ relation ∈ relations, relation.nameSource.ReadsRaw a.vocabulary)
    (hraw : g'.rawFacts a.vocabulary = g.rawFacts a.vocabulary) :
    a.ComesFirst rule subject relations [] g' schema predicate ↔
      ∃ before relation after, relations = before ++ relation :: after ∧
        relation.predicate = predicate ∧
        rule.LeadsToSchema a.propertyNamespace g subject relation schema ∧
        ∀ earlier ∈ before, ¬rule.LeadsToSchema a.propertyNamespace g subject earlier schema := by
  refine exists_congr fun before => exists_congr fun relation => exists_congr fun after =>
    and_congr_right fun heq => and_congr_right fun _ => ?_
  subst heq
  obtain ⟨hbefore, hrest⟩ := List.forall_mem_append.1 hrelations
  have hsource := hrest relation (List.mem_cons_self ..)
  rw [Rule.LeadsToSchema, hsource.nameIn_eq ((Act.rawFacts_writeAll _ g').trans hraw),
    performedProperties_eq hraw hbefore, link_mem_propertyActs_iff, Rule.LeadsToSchema]
  refine and_congr_right fun _ => ?_
  simp only [not_exists, not_and]

/-- **A rule that reads raw facts describes the properties that it gives**, by the predicates by
which it gives them. -/
theorem describes_iff (hrule : rule.ReadsRaw a.vocabulary) :
    a.Describes rule g schema predicate ↔
      ∃ n, rule.GivesPropertyBy a.propertyNamespace g n schema predicate := by
  have hrelations : ∀ relation ∈ rule.properties, relation.nameSource.ReadsRaw a.vocabulary :=
    fun relation hr => hrule.properties_nameSource hr
  have hplan : ∀ n, a.performedProperties rule n rule.properties [] g =
      a.propertyActs rule n g rule.properties [] := fun n => performedProperties_eq rfl hrelations
  have hturn : ∀ n, a.ComesFirst rule n rule.properties [] g schema predicate ↔
      ∃ name, .describe schema name predicate ∈ a.propertyActs rule n g rule.properties [] :=
    fun n => hplan n ▸ comesFirst_iff_exists_describe
  rw [← exists_describe_mem_performedRule_iff, performedRule_eq rfl hrule]
  constructor
  · rintro ⟨name, hact⟩
    obtain ⟨n, hn, hname, heq | ⟨relation, -, hscope⟩ | hact⟩ :=
      (mem_acts_iff_of_ne fun entry heq => by cases heq).1 hact
    · cases heq
    · -- a scope describes nothing
      obtain ⟨entry, heq⟩ | ⟨child, -, given, heq, -⟩ := Rule.cases_of_mem_childActs hscope
      · cases heq
      · cases heq
    · exact ⟨n, Rule.selects_iff.2 ⟨hn, hname⟩,
        (comesFirst_iff hrelations rfl).1 ((hturn n).2 ⟨name, hact⟩)⟩
  · rintro ⟨n, hselects, hfirst⟩
    obtain ⟨hn, hname⟩ := Rule.selects_iff.1 hselects
    obtain ⟨name, hact⟩ := (hturn n).1 ((comesFirst_iff hrelations rfl).2 hfirst)
    exact ⟨name, (mem_acts_iff_of_ne fun entry heq => by cases heq).2
      ⟨n, hn, hname, .inr (.inr hact)⟩⟩

/-- A rule that reads raw facts gives a node a property by one predicate at most. -/
theorem predicate_unique {n : Node} (hrule : rule.ReadsRaw a.vocabulary)
    (h : rule.GivesPropertyBy a.propertyNamespace g n schema p)
    (h' : rule.GivesPropertyBy a.propertyNamespace g n schema p') : p = p' := by
  have hrelations : ∀ relation ∈ rule.properties, relation.nameSource.ReadsRaw a.vocabulary :=
    fun relation hr => hrule.properties_nameSource hr
  exact ((comesFirst_iff hrelations rfl).2 h.first).unique
    ((comesFirst_iff hrelations rfl).2 h'.first)

end Annotator

/-! ## The annotated graph -/

namespace Annotator

variable {a : Annotator} {rule : Rule} {g : Graph} {schema : Node} {t : Term}

/-- Apart from names, a pass adds the facts that its acts make sure of. -/
theorem mem_annotate_iff {f : Fact} (hf : f.predicate ≠ a.vocabulary.objectName) :
    f ∈ (a.annotate rule g).2.toList ↔
      f ∈ g.toList ∨ ∃ act ∈ a.performedRule rule g, f ∈ act.facts a.vocabulary := by
  rw [annotate_eq_performed]
  exact Act.mem_writeAll _ g hf

variable (hv : a.vocabulary.Distinct)
include hv

/-- **The source predicates after a pass** are those before and those by which it describes the
schema node. -/
theorem propertySourcePredicate_mem_annotate_iff :
    ⟨schema, a.vocabulary.propertySourcePredicate, t⟩ ∈ (a.annotate rule g).2.toList ↔
      ⟨schema, a.vocabulary.propertySourcePredicate, t⟩ ∈ g.toList ∨
        ∃ predicate, a.Describes rule g schema predicate ∧ t = .node predicate := by
  rw [mem_annotate_iff (hv.ne_objectName (by simp))]
  simp only [(Act.factsByPredicate hv _).source, ← exists_describe_mem_performedRule_iff]
  refine or_congr_right ⟨?_, ?_⟩
  · rintro ⟨act, hact, name, predicate, rfl, rfl⟩
    exact ⟨predicate, ⟨name, hact⟩, rfl⟩
  · rintro ⟨predicate, ⟨name, hact⟩, rfl⟩
    exact ⟨_, hact, name, predicate, rfl, rfl⟩

/-- **A schema node after a pass** was one before, or the pass describes it. -/
theorem of_propertyName_mem_annotate
    (h : ⟨schema, a.vocabulary.propertyName, t⟩ ∈ (a.annotate rule g).2.toList) :
    ⟨schema, a.vocabulary.propertyName, t⟩ ∈ g.toList ∨
      ∃ predicate, a.Describes rule g schema predicate := by
  rw [mem_annotate_iff (hv.ne_objectName (by simp))] at h
  simp only [(Act.factsByPredicate hv _).name] at h
  refine h.imp_right ?_
  rintro ⟨act, hact, name, predicate, rfl, rfl⟩
  exact ⟨predicate, exists_describe_mem_performedRule_iff.1 ⟨name, hact⟩⟩

section Unannotated

variable (hg : g.Unannotated a.vocabulary)
include hg

theorem sources_of_unannotated :
    ⟨schema, a.vocabulary.propertySourcePredicate, t⟩ ∈ (a.annotate rule g).2.toList ↔
      ∃ predicate, a.Describes rule g schema predicate ∧ t = .node predicate :=
  (propertySourcePredicate_mem_annotate_iff hv).trans
    (or_iff_right (hg.not_mem (by simp [Vocabulary.predicates]) t))

theorem exists_describes_of_unannotated
    (h : ⟨schema, a.vocabulary.propertyName, t⟩ ∈ (a.annotate rule g).2.toList) :
    ∃ predicate, a.Describes rule g schema predicate :=
  (of_propertyName_mem_annotate hv h).resolve_left
    (hg.not_mem (by simp [Vocabulary.predicates]) t)

/-- **A schema node has one source predicate** if and only if it is described by no other. -/
theorem sources_eq_singleton_iff {predicate : Node} (h : a.Describes rule g schema predicate) :
    (a.annotate rule g).2.objects schema a.vocabulary.propertySourcePredicate =
        [.node predicate] ↔
      ∀ p, a.Describes rule g schema p → p = predicate := by
  have hmem : ∀ t, t ∈ (a.annotate rule g).2.objects schema a.vocabulary.propertySourcePredicate ↔
      ∃ p, a.Describes rule g schema p ∧ t = .node p :=
    fun t => Graph.mem_objects.trans (sources_of_unannotated hv hg)
  constructor
  · intro hone p hp
    have hsource := (hmem (.node p)).2 ⟨p, hp, rfl⟩
    rw [hone, List.mem_singleton] at hsource
    exact Term.node.inj hsource
  · intro honly
    refine Graph.objects_eq_singleton fun t => (sources_of_unannotated hv hg).trans ?_
    constructor
    · rintro ⟨p, hp, rfl⟩
      rw [honly p hp]
    · rintro rfl
      exact ⟨predicate, h, rfl⟩

end Unannotated

end Annotator

namespace Plant

def serial : Node := .iri "urn:plant#serial"

/-- Two sensors. What is the serial number of one is the model of the other. -/
def store : Graph := .ofList
  [⟨sensor, .iri rdfTypeIri, sensorKind⟩, ⟨spare, .iri rdfTypeIri, sensorKind⟩,
    ⟨sensor, serial, Literal.string "T-1000"⟩, ⟨spare, model, Literal.string "T-1000"⟩,
    ⟨spare, serial, Literal.string "S-7"⟩]

/-- The properties of sensors are known by their values. -/
def labelledSensors : Rule :=
  { id := "sensors", selector := ⟨.iri rdfTypeIri, sensorKind⟩,
    properties := [⟨serial, .fromValue serial⟩, ⟨model, .fromValue model⟩] }

end Plant

namespace Engine

variable {e : Engine} {g : Graph}

/-- **A schema node has one source predicate if and only if all turns agree on it.** The pass of a
rule over a graph without annotations gives a schema node the predicates by which it describes it,
so at least one. A rule that reads raw facts describes what it gives some subject by the first of
its relations that leads there. This is one predicate for each subject, so a second one comes from
another subject. -/
theorem one_source_iff_turns_agree (hg : g.Unannotated e.vocabulary) (rule : Rule) :
    let v := e.vocabulary
    let annotated := (e.annotator.annotate rule g).2
    (∀ schema t, ⟨schema, v.propertySourcePredicate, t⟩ ∈ annotated.toList ↔
      ∃ predicate, e.annotator.Describes rule g schema predicate ∧ t = .node predicate) ∧
    (∀ schema, (∃ t, ⟨schema, v.propertyName, t⟩ ∈ annotated.toList) →
      annotated.objects schema v.propertySourcePredicate ≠ [] ∧
      ((annotated.objects schema v.propertySourcePredicate).length = 1 ↔
        ∀ p p', e.annotator.Describes rule g schema p →
          e.annotator.Describes rule g schema p' → p = p')) ∧
    (rule.ReadsRaw v → ∀ schema,
      (∀ predicate, e.annotator.Describes rule g schema predicate ↔
        ∃ n, rule.GivesPropertyBy e.propertyNamespace g n schema predicate) ∧
      ∀ n p p', rule.GivesPropertyBy e.propertyNamespace g n schema p →
        rule.GivesPropertyBy e.propertyNamespace g n schema p' → p = p') := by
  intro v annotated
  have hv : e.annotator.vocabulary.Distinct := e.distinct_vocabulary
  have hsources : ∀ schema t, ⟨schema, v.propertySourcePredicate, t⟩ ∈ annotated.toList ↔
      ∃ predicate, e.annotator.Describes rule g schema predicate ∧ t = .node predicate :=
    fun schema t => Annotator.sources_of_unannotated hv hg
  refine ⟨hsources, fun schema ⟨t, hname⟩ => ?_, fun hrule schema =>
    ⟨fun predicate => Annotator.describes_iff hrule, fun n p p' hp hp' =>
      Annotator.predicate_unique (a := e.annotator) hrule hp hp'⟩⟩
  obtain ⟨predicate, hdescribes⟩ := Annotator.exists_describes_of_unannotated hv hg hname
  have hsource := Graph.mem_objects.2 ((hsources schema _).2 ⟨predicate, hdescribes, rfl⟩)
  have hsingle : annotated.objects schema v.propertySourcePredicate = [.node predicate] ↔
      ∀ p, e.annotator.Describes rule g schema p → p = predicate :=
    Annotator.sources_eq_singleton_iff hv hg hdescribes
  refine ⟨List.ne_nil_of_mem hsource, fun hone p p' hp hp' => ?_, fun hagree => ?_⟩
  · obtain ⟨only, honly⟩ := List.length_eq_one_iff.1 hone
    rw [honly, List.mem_singleton] at hsource
    subst hsource
    exact (hsingle.1 honly p hp).trans (hsingle.1 honly p' hp').symm
  · rw [hsingle.2 fun p hp => hagree p predicate hp hdescribes, List.length_singleton]

/-- The schema nodes of the store and their source predicates. -/
theorem annotated_store :
    let v := Plant.engine.vocabulary
    let annotated := (Plant.engine.annotator.annotate Plant.labelledSensors Plant.store).2
    ∀ x ∈ [("S-7", [Plant.serial]), ("T-1000", [Plant.serial, Plant.model])],
      let schema := propertyNode x.1 "sensors" Plant.engine.propertyNamespace
      ⟨schema, v.propertyName, Literal.string x.1⟩ ∈ annotated.toList ∧
        annotated.objects schema v.propertySourcePredicate = x.2.map Term.node := by
  decide +kernel

/-- In the store, the serial number of the spare sensor is a property with one source. What is the
serial number of one sensor and the model of the other one is a property with two. -/
theorem sources_in_store :
    let v := Plant.engine.vocabulary
    let annotated := (Plant.engine.annotator.annotate Plant.labelledSensors Plant.store).2
    let own := propertyNode "S-7" "sensors" Plant.engine.propertyNamespace
    let shared := propertyNode "T-1000" "sensors" Plant.engine.propertyNamespace
    Plant.store.Unannotated v ∧ Plant.labelledSensors.ReadsRaw v ∧
    (annotated.objects own v.propertySourcePredicate).length = 1 ∧
    (∀ p p', Plant.engine.annotator.Describes Plant.labelledSensors Plant.store own p →
      Plant.engine.annotator.Describes Plant.labelledSensors Plant.store own p' → p = p') ∧
    annotated.objects shared v.propertySourcePredicate =
      [.node Plant.serial, .node Plant.model] ∧
    Plant.labelledSensors.GivesPropertyBy Plant.engine.propertyNamespace Plant.store
      Plant.sensor shared Plant.serial ∧
    ∃ n ≠ Plant.sensor, Plant.labelledSensors.GivesPropertyBy Plant.engine.propertyNamespace
      Plant.store n shared Plant.model := by
  intro v annotated own shared
  have hg : Plant.store.Unannotated v := by decide +kernel
  have hrule : Plant.labelledSensors.ReadsRaw v := by decide +kernel
  obtain ⟨hsources, hone, hraw⟩ := one_source_iff_turns_agree (e := Plant.engine) hg
    Plant.labelledSensors
  obtain ⟨hname, hown⟩ := annotated_store ("S-7", _) (List.mem_cons_self ..)
  obtain ⟨-, hshared⟩ := annotated_store ("T-1000", _) (List.mem_cons_of_mem _
    (List.mem_singleton_self _))
  have hlength : (annotated.objects own v.propertySourcePredicate).length = 1 := by rw [hown]; rfl
  have hserial : (NameSource.fromValue Plant.serial).nameIn Plant.store Plant.sensor =
      "T-1000" := by decide +kernel
  have hsensor : Plant.labelledSensors.GivesPropertyBy Plant.engine.propertyNamespace Plant.store
      Plant.sensor shared Plant.serial := by
    refine ⟨⟨by decide +kernel, by decide +kernel⟩, [], _, _, rfl, rfl, ?_, List.forall_mem_nil _⟩
    rw [Rule.LeadsToSchema, hserial]
    exact ⟨by decide, rfl⟩
  have hmodel : ⟨shared, v.propertySourcePredicate, .node Plant.model⟩ ∈ annotated.toList := by
    rw [← Graph.mem_objects, hshared]
    exact List.mem_cons_of_mem _ (List.mem_singleton_self _)
  obtain ⟨predicate, hdescribes, heq⟩ := (hsources shared _).1 hmodel
  obtain rfl : Plant.model = predicate := Term.node.inj heq
  obtain ⟨hgives, honly⟩ := hraw hrule shared
  obtain ⟨n, hn⟩ := (hgives Plant.model).1 hdescribes
  refine ⟨hg, hrule, hlength, (hone own ⟨_, hname⟩).2.1 hlength, hshared, hsensor, n, ?_, hn⟩
  rintro rfl
  exact absurd (honly _ _ _ hsensor hn) (by decide)

/-- **A schema node can have two source predicates**, also where the rule is sound and the graph has
no annotations. -/
theorem sensors_disagree_on_source :
    ¬∀ (e : Engine) (rule : Rule) (g : Graph) (schema : Node) (t : Term),
      rule.check = .ok () → g.Unannotated e.vocabulary →
      ⟨schema, e.vocabulary.propertyName, t⟩ ∈ (e.annotator.annotate rule g).2.toList →
      ((e.annotator.annotate rule g).2.objects schema
        e.vocabulary.propertySourcePredicate).length = 1 := by
  intro hone
  obtain ⟨hname, hshared⟩ := annotated_store ("T-1000", _) (List.mem_cons_of_mem _
    (List.mem_singleton_self _))
  have hlength := hone Plant.engine Plant.labelledSensors Plant.store _ _ (by decide +kernel)
    (by decide +kernel) hname
  rw [hshared] at hlength
  exact absurd hlength (by decide)

end Engine

end FactHierarchy
