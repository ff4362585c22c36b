import FactHierarchy.Proofs.Annotation.Placements

/-!
# What annotation means

What a rule asks for can be said about one graph, without passes, acts or an order: it *selects*
nodes, *nests* children below them and *gives* them *properties* (`Rule.Selects`, `Rule.Nests`,
`Rule.GivesProperty`). The plan of a rule consists of just that (`Annotator.exists_enrol_iff`,
`Annotator.exists_adopt_iff`, `Annotator.link_mem_acts_iff`).

So annotation by rules that read raw facts adds the markers, parents and properties that its rules
ask for in the graph that it starts from, and no others (`Annotator.markerFact_mem_annotateAll_iff`,
`Annotator.parentRef_mem_annotateAll_iff`, `Annotator.hasProperty_mem_annotateAll_iff`).
-/

set_option autoImplicit false

namespace FactHierarchy

/-! ## What a rule asks for -/

namespace Rule

/-- **The rule selects the node**, and has a name for it. -/
structure Selects (r : Rule) (g : Graph) (n : Node) : Prop where
  fact : ⟨n, r.selector.predicate, r.selector.value⟩ ∈ g.toList
  named : r.nameSource.nameIn g n ≠ ""

/-- **The rule nests a child below a parent**: it selects the parent, and one of its child relations
leads from there to the child and has a name for it. -/
structure Nests (r : Rule) (g : Graph) (c p : Node) : Prop where
  selects : r.Selects g p
  related : ∃ relation ∈ r.children, ⟨p, relation.predicate, .node c⟩ ∈ g.toList ∧
    relation.nameSource.nameIn g c ≠ ""

/-- **The rule gives a node a property**: it selects the node, and one of its property relations has
the name for it by which the property is known. -/
structure GivesProperty (propertyNamespace : String) (r : Rule) (g : Graph) (n schema : Node) :
    Prop where
  selects : r.Selects g n
  related : ∃ relation ∈ r.properties, relation.nameSource.nameIn g n ≠ "" ∧
    schema = propertyNode (relation.nameSource.nameIn g n) r.id propertyNamespace

/-- **The rule touches the node**: it selects it or nests it below a node that it selects. -/
def Touches (r : Rule) (g : Graph) (n : Node) : Prop := r.Selects g n ∨ ∃ p, r.Nests g n p

variable {r : Rule} {g : Graph} {n : Node}

theorem selects_iff :
    r.Selects g n ↔ n ∈ r.selector.subjects g ∧ r.nameSource.nameIn g n ≠ "" := by
  rw [Selector.subjects, Graph.mem_subjects]
  exact ⟨fun h => ⟨h.fact, h.named⟩, fun h => ⟨h.1, h.2⟩⟩

end Rule

/-! ## Plans -/

/-- The acts for a scope put a child below the parent exactly when the relation leads to the child
and has a name for it. -/
theorem Rule.exists_adopt_mem_scopeActs_iff {rule : Rule} {p c : Node} {g : Graph}
    {relation : Relation} :
    (∃ name, .adopt p c name ∈ rule.scopeActs p g relation) ↔
      ⟨p, relation.predicate, .node c⟩ ∈ g.toList ∧ relation.nameSource.nameIn g c ≠ "" := by
  constructor
  · rintro ⟨name, hact⟩
    obtain ⟨entry, heq⟩ | ⟨child, hchild, given, heq, hname, -⟩ := cases_of_mem_childActs hact
    · cases heq
    · obtain ⟨-, rfl, -⟩ := Act.adopt.inj heq
      exact ⟨Graph.mem_objectNodes.1 hchild, hname⟩
  · rintro ⟨hf, hname⟩
    exact exists_adopt_mem_childActs .empty (Graph.mem_objectNodes.2 hf) hname

namespace Annotator

variable {a : Annotator} {rule : Rule} {g : Graph} {subject n p c schema : Node}
  {relations : List Relation} {described : List Node} {act : Act}

/-- The subject is linked for every property that has a name. -/
theorem link_mem_propertyActs {relation : Relation} (hrelation : relation ∈ relations)
    (hname : relation.nameSource.nameIn g subject ≠ "") :
    Act.link subject (propertyNode (relation.nameSource.nameIn g subject) rule.id
      a.propertyNamespace) ∈ a.propertyActs rule subject g relations described := by
  induction relations generalizing described with
  | nil => cases hrelation
  | cons first relations ih =>
      rw [propertyActs]
      rcases List.mem_cons.1 hrelation with rfl | hrelation
      · rw [if_neg (by rwa [String.isEmpty_iff])]
        exact List.mem_append_right _ (List.mem_cons_self ..)
      · split
        · exact List.mem_cons_of_mem _ (ih hrelation)
        · exact List.mem_append_right _ (List.mem_cons_of_mem _ (ih hrelation))

/-- **A rule enrols the nodes that it selects.** -/
theorem exists_enrol_iff : (∃ name, .enrol n name ∈ a.acts rule g) ↔ rule.Selects g n := by
  simp only [enrol_mem_acts_iff, Rule.selects_iff]
  constructor
  · rintro ⟨name, hn, rfl, hname⟩
    exact ⟨hn, hname⟩
  · rintro ⟨hn, hname⟩
    exact ⟨_, hn, rfl, hname⟩

/-- **A rule adopts the children that it nests.** -/
theorem exists_adopt_iff : (∃ name, .adopt p c name ∈ a.acts rule g) ↔ rule.Nests g c p := by
  simp only [adopt_mem_acts_iff]
  constructor
  · rintro ⟨name, hp, hname, relation, hrelation, hscope⟩
    exact ⟨Rule.selects_iff.2 ⟨hp, hname⟩, relation, hrelation,
      Rule.exists_adopt_mem_scopeActs_iff.1 ⟨name, hscope⟩⟩
  · rintro ⟨hselects, relation, hrelation, hchild⟩
    obtain ⟨hp, hname⟩ := Rule.selects_iff.1 hselects
    obtain ⟨name, hscope⟩ := Rule.exists_adopt_mem_scopeActs_iff.2 hchild
    exact ⟨name, hp, hname, relation, hrelation, hscope⟩

/-- **A rule links the nodes that it gives a property.** -/
theorem link_mem_acts_iff :
    .link n schema ∈ a.acts rule g ↔ rule.GivesProperty a.propertyNamespace g n schema := by
  rw [mem_acts_iff_of_ne fun entry heq => by cases heq]
  constructor
  · rintro ⟨subject, hmem, hname, heq | ⟨relation, -, hscope⟩ | hproperty⟩
    · cases heq
    · -- a scope links nobody
      obtain ⟨entry, heq⟩ | ⟨child, -, given, heq, -⟩ := Rule.cases_of_mem_childActs hscope
      · cases heq
      · cases heq
    · obtain ⟨entry, heq⟩ | ⟨_, _, _, heq⟩ | ⟨relation, hrelation, hrelated, heq⟩ :=
        cases_of_mem_propertyActs hproperty
      · cases heq
      · cases heq
      · obtain ⟨rfl, rfl⟩ := Act.link.inj heq
        exact ⟨Rule.selects_iff.2 ⟨hmem, hname⟩, relation, hrelation, hrelated, rfl⟩
  · rintro ⟨hselects, relation, hrelation, hrelated, rfl⟩
    obtain ⟨hmem, hname⟩ := Rule.selects_iff.1 hselects
    exact ⟨n, hmem, hname, .inr (.inr (link_mem_propertyActs hrelation hrelated))⟩

/-- **A rule marks the nodes that it touches.** -/
theorem exists_marked_iff : (∃ act ∈ a.acts rule g, n ∈ act.marked) ↔ rule.Touches g n := by
  constructor
  · rintro ⟨act, hact, hn⟩
    cases act with
    | enrol root name =>
        obtain rfl : n = root := List.mem_singleton.1 hn
        exact .inl (exists_enrol_iff.1 ⟨name, hact⟩)
    | adopt parent child name =>
        obtain rfl : n = child := List.mem_singleton.1 hn
        exact .inr ⟨parent, exists_adopt_iff.1 ⟨name, hact⟩⟩
    | leaveOut _ | describe _ _ _ | link _ _ => cases hn
  · rintro (hn | ⟨p, hn⟩)
    · obtain ⟨name, hact⟩ := exists_enrol_iff.2 hn
      exact ⟨_, hact, List.mem_singleton_self n⟩
    · obtain ⟨name, hact⟩ := exists_adopt_iff.2 hn
      exact ⟨_, hact, List.mem_singleton_self n⟩

end Annotator

/-! ## The annotated graph -/

namespace Annotator

variable {a : Annotator} {rules rules' : List Rule} {g : Graph}
  (hrules : ∀ rule ∈ rules, rule.ReadsRaw a.vocabulary)
include hrules

/-- Apart from names, annotation adds the facts that the acts of the plans make sure of. -/
theorem mem_annotateAll_iff {f : Fact} (hf : f.predicate ≠ a.vocabulary.objectName) :
    f ∈ (a.annotateAll rules g).2.toList ↔
      f ∈ g.toList ∨ ∃ rule ∈ rules, ∃ act ∈ a.acts rule g, f ∈ act.facts a.vocabulary := by
  rw [annotateAll_eq hrules rfl, Act.mem_writeAll _ g hf]
  simp only [List.mem_flatMap]
  refine or_congr_right ⟨?_, ?_⟩
  · rintro ⟨act, ⟨rule, hrule, hact⟩, hf⟩
    exact ⟨rule, hrule, act, hact, hf⟩
  · rintro ⟨rule, hrule, act, hact, hf⟩
    exact ⟨act, ⟨rule, hrule, hact⟩, hf⟩

/-- **Apart from names, the order of the rules does not matter.** -/
theorem mem_annotateAll_perm (hperm : rules'.Perm rules) {f : Fact}
    (hf : f.predicate ≠ a.vocabulary.objectName) :
    f ∈ (a.annotateAll rules' g).2.toList ↔ f ∈ (a.annotateAll rules g).2.toList := by
  have hrules' : ∀ rule ∈ rules', rule.ReadsRaw a.vocabulary :=
    fun rule hrule => hrules rule (hperm.mem_iff.1 hrule)
  rw [mem_annotateAll_iff hrules' hf, mem_annotateAll_iff hrules hf]
  simp only [hperm.mem_iff]

variable (hv : a.vocabulary.Distinct)
include hv

/-- **The parents after annotation** are those before and those below which rules nest nodes. -/
theorem parentRef_mem_annotateAll_iff {c : Node} {t : Term} :
    ⟨c, a.vocabulary.parentRef, t⟩ ∈ (a.annotateAll rules g).2.toList ↔
      ⟨c, a.vocabulary.parentRef, t⟩ ∈ g.toList ∨
        ∃ rule ∈ rules, ∃ p, rule.Nests g c p ∧ t = .node p := by
  rw [mem_annotateAll_iff hrules (hv.ne_objectName (by simp))]
  refine or_congr_right (exists_congr fun rule => and_congr_right fun _ => ?_)
  simp only [(Act.factsByPredicate hv _).parent, ← exists_adopt_iff (a := a)]
  constructor
  · rintro ⟨act, hact, p, name, rfl, rfl⟩
    exact ⟨p, ⟨name, hact⟩, rfl⟩
  · rintro ⟨p, ⟨name, hact⟩, rfl⟩
    exact ⟨_, hact, p, name, rfl, rfl⟩

/-- **The objects after annotation** are those before and the nodes that rules touch. -/
theorem markerFact_mem_annotateAll_iff {n : Node} :
    a.vocabulary.markerFact n ∈ (a.annotateAll rules g).2.toList ↔
      a.vocabulary.markerFact n ∈ g.toList ∨ ∃ rule ∈ rules, rule.Touches g n := by
  rw [mem_annotateAll_iff hrules (hv.ne_objectName (by simp [Vocabulary.markerFact]))]
  simp only [(Act.factsByPredicate hv _).marker, exists_marked_iff]

/-- **The properties after annotation** are those before and those that rules give. -/
theorem hasProperty_mem_annotateAll_iff {n : Node} {t : Term} :
    ⟨n, a.vocabulary.hasProperty, t⟩ ∈ (a.annotateAll rules g).2.toList ↔
      ⟨n, a.vocabulary.hasProperty, t⟩ ∈ g.toList ∨ ∃ rule ∈ rules, ∃ schema,
        rule.GivesProperty a.propertyNamespace g n schema ∧ t = .node schema := by
  rw [mem_annotateAll_iff hrules (hv.ne_objectName (by simp))]
  refine or_congr_right (exists_congr fun rule => and_congr_right fun _ => ?_)
  simp only [(Act.factsByPredicate hv _).property, ← link_mem_acts_iff]
  constructor
  · rintro ⟨act, hact, schema, rfl, rfl⟩
    exact ⟨schema, hact, rfl⟩
  · rintro ⟨schema, hact, rfl⟩
    exact ⟨_, hact, schema, rfl, rfl⟩

end Annotator

end FactHierarchy
