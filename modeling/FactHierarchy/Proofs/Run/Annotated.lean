import FactHierarchy.Proofs.Annotation.Precedence
import FactHierarchy.Proofs.Run.FromScratch

/-!
# What the rules of an engine leave in a graph

Annotation writes and reads one and the same graph, rule after rule. Rules that read raw facts do
not notice: all that they add can be read off the graph that they start from.

The markers, parents and properties are those that the rules ask for there, in whichever order the
rules come (`Engine.annotation_adds_what_rules_ask_for`). The order decides about names alone: the
last scope that a node is in names it, and else the first rule that selects it
(`Engine.last_scope_or_first_rule_names`).
-/

set_option autoImplicit false

namespace FactHierarchy

namespace Plant

/-- A sensor that the second line has besides the one that it shares. -/
def spare : Node := .iri "urn:plant#spare"

/-- A predicate whose values the rules of the workshop take for a property. -/
def model : Node := .iri "urn:plant#model"

/-- The plant with a spare sensor, which comes first among the sensors of the second line. -/
def workshop : Graph := .ofList
  [⟨line1, .iri rdfTypeIri, lineKind⟩, ⟨line2, .iri rdfTypeIri, lineKind⟩,
    ⟨sensor, .iri rdfTypeIri, sensorKind⟩, ⟨line2, has, spare⟩, ⟨line1, has, sensor⟩,
    ⟨line2, has, sensor⟩, ⟨sensor, model, Literal.string "T-1000"⟩]

/-- Sensors are named as roots, and as children of lines they are all called probes. -/
def workshopRules : List Rule :=
  [{ id := "lines", selector := ⟨.iri rdfTypeIri, lineKind⟩, children := [⟨has, .fixed "probe"⟩] },
    { id := "sensors", selector := ⟨.iri rdfTypeIri, sensorKind⟩,
      properties := [⟨model, .fromValue model⟩] }]

end Plant

namespace Engine

variable {e : Engine} {rules : List Rule} {g : Graph}

/-! ## Markers, parents and properties -/

/-- **Annotation by rules that read raw facts adds what the rules ask for in the graph that it
starts from.** There is a parent for every child that a rule nests, a marker for every node that a
rule touches and a link for every property that a rule gives, and no others. So the order of the
rules does not matter for them. -/
theorem annotation_adds_what_rules_ask_for
    (hrules : ∀ rule ∈ rules, rule.ReadsRaw e.vocabulary) :
    (∀ c t, ⟨c, e.vocabulary.parentRef, t⟩ ∈ (e.annotator.annotateAll rules g).2.toList ↔
      ⟨c, e.vocabulary.parentRef, t⟩ ∈ g.toList ∨
        ∃ rule ∈ rules, ∃ p, rule.Nests g c p ∧ t = .node p) ∧
    (∀ n, e.vocabulary.markerFact n ∈ (e.annotator.annotateAll rules g).2.toList ↔
      e.vocabulary.markerFact n ∈ g.toList ∨ ∃ rule ∈ rules, rule.Touches g n) ∧
    (∀ n t, ⟨n, e.vocabulary.hasProperty, t⟩ ∈ (e.annotator.annotateAll rules g).2.toList ↔
      ⟨n, e.vocabulary.hasProperty, t⟩ ∈ g.toList ∨ ∃ rule ∈ rules, ∃ schema,
        rule.GivesProperty e.propertyNamespace g n schema ∧ t = .node schema) ∧
    ∀ rules', rules'.Perm rules → ∀ f,
      f.predicate = e.vocabulary.parentRef ∨ e.vocabulary.isMarker f = true ∨
        f.predicate = e.vocabulary.hasProperty →
      (f ∈ (e.annotator.annotateAll rules' g).2.toList ↔
        f ∈ (e.annotator.annotateAll rules g).2.toList) := by
  have hv := e.distinct_vocabulary
  refine ⟨fun c t => Annotator.parentRef_mem_annotateAll_iff hrules hv,
    fun n => Annotator.markerFact_mem_annotateAll_iff hrules hv,
    fun n t => Annotator.hasProperty_mem_annotateAll_iff hrules hv, ?_⟩
  intro rules' hperm f hf
  refine Annotator.mem_annotateAll_perm hrules hperm (hv.ne_objectName ?_)
  rcases hf with hf | hf | hf
  · simp [hf]
  · rw [Vocabulary.isMarker, Bool.and_eq_true, beq_iff_eq] at hf
    simp [hf.1]
  · simp [hf]

/-- In the workshop, the sensor gets both lines as parents, a marker and its model as a property,
also where the rules come the other way round. -/
theorem annotation_of_workshop :
    let v := Plant.engine.vocabulary
    let annotated := (Plant.engine.annotator.annotateAll Plant.workshopRules.reverse
      Plant.workshop).2
    (∀ rule ∈ Plant.workshopRules, rule.ReadsRaw v) ∧
    v.parentFact Plant.sensor Plant.line1 ∈ annotated.toList ∧
    v.parentFact Plant.sensor Plant.line2 ∈ annotated.toList ∧
    v.markerFact Plant.sensor ∈ annotated.toList ∧
    ⟨Plant.sensor, v.hasProperty,
      propertyNode "T-1000" "sensors" Plant.engine.propertyNamespace⟩ ∈ annotated.toList := by
  intro v annotated
  have hrules : ∀ rule ∈ Plant.workshopRules, rule.ReadsRaw v := by decide +kernel
  obtain ⟨hparent, hmarker, hproperty, horder⟩ :=
    annotation_adds_what_rules_ask_for (e := Plant.engine) (g := Plant.workshop) hrules
  have horder := horder _ (List.reverse_perm Plant.workshopRules)
  -- the first rule nests the sensor below both lines, and the second one selects it
  have hnests : ∀ line ∈ [Plant.line1, Plant.line2],
      (Plant.workshopRules[0]).Nests Plant.workshop Plant.sensor line := by
    intro line hline
    refine ⟨⟨?_, ?_⟩, ⟨Plant.has, .fixed "probe"⟩, List.mem_singleton_self _, ?_, by decide⟩
    all_goals revert line; decide +kernel
  have hselects : (Plant.workshopRules[1]).Selects Plant.workshop Plant.sensor :=
    ⟨by decide +kernel, by decide +kernel⟩
  refine ⟨hrules, ?_, ?_, ?_, ?_⟩
  · exact (horder _ (.inl rfl)).2 ((hparent _ _).2 (.inr
      ⟨_, List.getElem_mem _, _, hnests Plant.line1 (by simp), rfl⟩))
  · exact (horder _ (.inl rfl)).2 ((hparent _ _).2 (.inr
      ⟨_, List.getElem_mem _, _, hnests Plant.line2 (by simp), rfl⟩))
  · refine (horder _ (.inr (.inl ?_))).2 ((hmarker _).2 (.inr
      ⟨_, List.getElem_mem _, .inl hselects⟩))
    decide +kernel
  · refine (horder _ (.inr (.inr rfl))).2 ((hproperty _ _).2 (.inr
      ⟨_, List.getElem_mem _, _, ⟨hselects, ⟨Plant.model, .fromValue Plant.model⟩,
        List.mem_singleton_self _, ?_, ?_⟩, rfl⟩))
    · decide +kernel
    · have hname : (NameSource.fromValue Plant.model).nameIn Plant.workshop Plant.sensor =
          "T-1000" := by decide +kernel
      rw [hname]
      rfl

/-! ## Names -/

/-- **The last scope that a node is in names it, and else the first rule that selects it.** In a
scope, the node has the name that it claims there after the children before it. A node that is in
no scope and that no rule selects has no name. It does not matter in which order a node is
selected and nested. -/
theorem last_scope_or_first_rule_names
    (hnameless : ∀ f ∈ g.toList, f.predicate ≠ e.vocabulary.objectName)
    (hrules : ∀ rule ∈ rules, rule.ReadsRaw e.vocabulary) (n : Node) :
    ((∃ scope ∈ rules.flatMap (Rule.scopes g), n ∈ scope.children g) →
      ∃ before scope after name,
        rules.flatMap (Rule.scopes g) = before ++ scope :: after ∧
        (n, name) ∈ scope.claims g ∧ (∀ later ∈ after, n ∉ later.children g) ∧
        (e.annotator.annotateAll rules g).2.objects n e.vocabulary.objectName =
          [.literal (.string name)]) ∧
    ((∀ scope ∈ rules.flatMap (Rule.scopes g), n ∉ scope.children g) →
      (∃ rule ∈ rules, rule.Selects g n) →
      ∃ before rule after, rules = before ++ rule :: after ∧ rule.Selects g n ∧
        (∀ earlier ∈ before, ¬earlier.Selects g n) ∧
        (e.annotator.annotateAll rules g).2.objects n e.vocabulary.objectName =
          [.literal (.string (rule.nameSource.nameIn g n))]) ∧
    ((∀ scope ∈ rules.flatMap (Rule.scopes g), n ∉ scope.children g) →
      (∀ rule ∈ rules, ¬rule.Selects g n) →
      (e.annotator.annotateAll rules g).2.objects n e.vocabulary.objectName = []) := by
  have hv := e.distinct_vocabulary
  refine ⟨fun hscope => ?_, fun hnone hrule => ?_, fun hnone hrule => ?_⟩
  · obtain ⟨before, scope, after, hscopes, hn, hlast⟩ := exists_last hscope
    rw [← scope.map_fst_claims] at hn
    obtain ⟨⟨m, name⟩, hname, rfl⟩ := List.mem_map.1 hn
    exact ⟨before, scope, after, name, hscopes, hname, hlast,
      Annotator.objectName_of_last_scope (a := e.annotator) hv hrules hnameless hscopes hname hlast⟩
  · obtain ⟨before, rule, after, heq, hselects, hfirst⟩ := exists_first hrule
    exact ⟨before, rule, after, heq, hselects, hfirst,
      Annotator.objectName_of_first_rule (a := e.annotator) hv hrules hnameless hnone heq hselects
        hfirst⟩
  · exact Annotator.objectName_of_untouched (a := e.annotator) hv hrules hnameless hnone hrule

/-- In the workshop, the sensor is the second probe of the second line, although the last rule
selects it as a root, and a line has its own name. -/
theorem names_in_workshop :
    let v := Plant.engine.vocabulary
    let annotated := (Plant.engine.annotator.annotateAll Plant.workshopRules Plant.workshop).2
    (∀ f ∈ Plant.workshop.toList, f.predicate ≠ v.objectName) ∧
    (∀ rule ∈ Plant.workshopRules, rule.ReadsRaw v) ∧
    (∃ rule ∈ Plant.workshopRules, rule.Selects Plant.workshop Plant.sensor) ∧
    (∃ before scope after,
      Plant.workshopRules.flatMap (Rule.scopes Plant.workshop) = before ++ scope :: after ∧
      (Plant.sensor, "probe2") ∈ scope.claims Plant.workshop ∧
      (∀ later ∈ after, Plant.sensor ∉ later.children Plant.workshop) ∧
      annotated.objects Plant.sensor v.objectName = [.literal (.string "probe2")]) ∧
    annotated.objects Plant.line1 v.objectName = [.literal (.string "line1")] ∧
    annotated.objects Plant.has v.objectName = [] := by
  intro v annotated
  have hnameless : ∀ f ∈ Plant.workshop.toList, f.predicate ≠ v.objectName := by decide +kernel
  have hrules : ∀ rule ∈ Plant.workshopRules, rule.ReadsRaw v := by decide +kernel
  have hnames := fun n => last_scope_or_first_rule_names (e := Plant.engine) hnameless hrules n
  have hselects : (Plant.workshopRules[1]).Selects Plant.workshop Plant.sensor :=
    ⟨by decide +kernel, by decide +kernel⟩
  have hline : (Plant.workshopRules[0]).Selects Plant.workshop Plant.line1 :=
    ⟨by decide +kernel, by decide +kernel⟩
  have hscopes : (∃ scope ∈ Plant.workshopRules.flatMap (Rule.scopes Plant.workshop),
        Plant.sensor ∈ scope.children Plant.workshop) ∧
      ∀ n ∈ [Plant.line1, Plant.has], ∀ scope ∈
        Plant.workshopRules.flatMap (Rule.scopes Plant.workshop),
          n ∉ scope.children Plant.workshop := by decide +kernel
  obtain ⟨hsensor, hothers⟩ := hscopes
  refine ⟨hnameless, hrules, ⟨_, List.getElem_mem _, hselects⟩, ?_, ?_, ?_⟩
  · obtain ⟨before, scope, after, name, heq, hclaim, hlast, hname⟩ :=
      (hnames Plant.sensor).1 hsensor
    have hprobe : annotated.objects Plant.sensor v.objectName = [.literal (.string "probe2")] := by
      decide +kernel
    have hterms : [Term.literal (.string name)] = [.literal (.string "probe2")] :=
      hname.symm.trans hprobe
    obtain rfl : name = "probe2" := by
      simpa only [List.cons.injEq, Term.literal.injEq, Literal.string, Literal.mk.injEq,
        and_true] using hterms
    exact ⟨before, scope, after, heq, hclaim, hlast, hprobe⟩
  · obtain ⟨before, rule, after, heq, -, -, hname⟩ := (hnames Plant.line1).2.1
      (hothers _ (by simp)) ⟨_, List.getElem_mem _, hline⟩
    have hlocal : ∀ rule ∈ Plant.workshopRules,
        rule.nameSource.nameIn Plant.workshop Plant.line1 = "line1" := by decide +kernel
    have hrule : rule ∈ Plant.workshopRules := by simp [heq]
    rwa [hlocal rule hrule] at hname
  · have hunselected : ∀ rule ∈ Plant.workshopRules,
        Plant.has ∉ rule.namedSubjects Plant.workshop := by decide +kernel
    exact (hnames Plant.has).2.2 (hothers _ (by simp)) fun rule hrule hhas =>
      hunselected rule hrule (Rule.mem_namedSubjects.2 hhas)

end Engine

end FactHierarchy
