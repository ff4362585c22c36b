import FactHierarchy.Proofs.Annotation.Performed

/-!
# Annotation that is planned beforehand

A rule that reads raw facts decides from raw facts alone what it does, and no act of any rule
touches raw facts. So **the acts of its pass are known before the pass begins**: they are
`Annotator.acts`, read off any graph with the same raw facts (`Annotator.annotate_eq`), and a
list of such rules does what their plans say one after the other (`Annotator.annotateAll_eq`).
-/

set_option autoImplicit false

namespace FactHierarchy

/-! ## Plans -/

/-- The acts for the children of one scope. Names are read off `g`, and the table holds the names
claimed in the scope. -/
def Rule.childActs (rule : Rule) (parent : Node) (relation : Relation) (g : Graph) :
    List Node → TakenNames → List Act
  | [], _ => []
  | child :: children, names =>
    let name := relation.nameSource.nameIn g child
    if name.isEmpty then
      .leaveOut ⟨rule.id, child, .child parent relation.predicate⟩ ::
        rule.childActs parent relation g children names
    else
      let (given, names) := names.claim name
      .adopt parent child given :: rule.childActs parent relation g children names

/-- The acts for one scope. -/
def Rule.scopeActs (rule : Rule) (parent : Node) (g : Graph) (relation : Relation) : List Act :=
  rule.childActs parent relation g
    ((g.objects parent relation.predicate).filterMap Term.node?) .empty

namespace Annotator

/-- The acts for the properties of a subject. The schema nodes in `described` were described for
this subject and are not described again. -/
def propertyActs (a : Annotator) (rule : Rule) (subject : Node) (g : Graph) :
    List Relation → List Node → List Act
  | [], _ => []
  | relation :: relations, described =>
    let name := relation.nameSource.nameIn g subject
    if name.isEmpty then
      .leaveOut ⟨rule.id, subject, .property relation.predicate⟩ ::
        a.propertyActs rule subject g relations described
    else
      let schema := propertyNode name rule.id a.propertyNamespace
      (if schema ∈ described then [] else [.describe schema name relation.predicate]) ++
        .link subject schema :: a.propertyActs rule subject g relations (schema :: described)

/-- The acts for one selected subject. -/
def subjectActs (a : Annotator) (rule : Rule) (g : Graph) (subject : Node) : List Act :=
  let name := rule.nameSource.nameIn g subject
  if name.isEmpty then [.leaveOut ⟨rule.id, subject, .root⟩]
  else
    .enrol subject name :: (rule.children.flatMap (rule.scopeActs subject g) ++
      a.propertyActs rule subject g rule.properties [])

/-- **The plan of a rule**: the acts of its annotation pass. -/
def acts (a : Annotator) (rule : Rule) (g : Graph) : List Act :=
  (rule.selector.subjects g).flatMap (a.subjectActs rule g)

/-- The report that a plan leads to. -/
def plannedReport (a : Annotator) (g : Graph) (rule : Rule) : AnnotationReport :=
  ⟨rule.id, (a.acts rule g).filterMap Act.enrolled, (a.acts rule g).filterMap Act.omission⟩

end Annotator

/-! ## Passes follow their plans -/

/-- What is planned for several things is performed in turn, if raw facts decide about each. -/
theorem Act.inTurn_eq_flatMap {α : Type} {a : Annotator} {g g' : Graph}
    {acts : α → Graph → List Act} {plan : α → List Act} {xs : List α}
    (hplan : ∀ x ∈ xs, ∀ g', g'.rawFacts a.vocabulary = g.rawFacts a.vocabulary →
      acts x g' = plan x)
    (hraw : g'.rawFacts a.vocabulary = g.rawFacts a.vocabulary) :
    inTurn a acts xs g' = xs.flatMap plan := by
  induction xs generalizing g' with
  | nil => rfl
  | cons x xs ih =>
      obtain ⟨hx, hxs⟩ := List.forall_mem_cons.1 hplan
      rw [inTurn, hx g' hraw, List.flatMap_cons, ih hxs]
      exact (rawFacts_writeAll (plan x) g').trans hraw

namespace Annotator

variable {a : Annotator} {rule : Rule} {g : Graph}

section Steps

variable {g' : Graph} (hraw : g'.rawFacts a.vocabulary = g.rawFacts a.vocabulary)
include hraw

theorem performedChildren_eq {parent : Node} {relation : Relation} {children : List Node}
    {names : TakenNames} (hsource : relation.nameSource.ReadsRaw a.vocabulary) :
    a.performedChildren rule parent relation children names g' =
      rule.childActs parent relation g children names := by
  induction children generalizing names g' with
  | nil => rfl
  | cons child children ih =>
      rw [performedChildren, Rule.childActs, hsource.nameIn_eq hraw child]
      split
      · rw [ih hraw]
      · obtain ⟨given, names⟩ := names.claim (relation.nameSource.nameIn g child)
        have hadopt : (a.adopt parent child given g').rawFacts a.vocabulary =
            g'.rawFacts a.vocabulary := (Act.adopt parent child given).rawFacts_write g'
        dsimp only
        rw [ih (hadopt.trans hraw)]

theorem performedScope_eq {parent : Node} {relation : Relation}
    (hpredicate : a.vocabulary.IsRawPredicate relation.predicate)
    (hsource : relation.nameSource.ReadsRaw a.vocabulary) :
    a.performedScope rule parent relation g' = rule.scopeActs parent g relation := by
  rw [performedScope, Rule.scopeActs, Graph.objects_eq_of_rawFacts_eq hraw hpredicate]
  exact performedChildren_eq hraw hsource

theorem performedProperties_eq {subject : Node} {relations : List Relation}
    {described : List Node}
    (hrelations : ∀ relation ∈ relations, relation.nameSource.ReadsRaw a.vocabulary) :
    a.performedProperties rule subject relations described g' =
      a.propertyActs rule subject g relations described := by
  induction relations generalizing described g' with
  | nil => rfl
  | cons relation relations ih =>
      obtain ⟨hsource, hrelations⟩ := List.forall_mem_cons.1 hrelations
      rw [performedProperties, propertyActs, hsource.nameIn_eq hraw subject]
      split
      · rw [ih hraw hrelations]
      · dsimp only
        rw [ih ((Act.rawFacts_writeAll _ g').trans hraw) hrelations, List.append_assoc,
          List.singleton_append]

theorem performedScopes_eq {subject : Node} {relations : List Relation}
    (hrelations : ∀ relation ∈ relations, a.vocabulary.IsRawPredicate relation.predicate ∧
      relation.nameSource.ReadsRaw a.vocabulary) :
    Act.inTurn a (a.performedScope rule subject) relations g' =
      relations.flatMap (rule.scopeActs subject g) := by
  refine Act.inTurn_eq_flatMap (fun relation hrelation g' hraw => ?_) hraw
  obtain ⟨hpredicate, hsource⟩ := hrelations relation hrelation
  exact performedScope_eq hraw hpredicate hsource

theorem performedSubject_eq (hrule : rule.ReadsRaw a.vocabulary) (subject : Node) :
    a.performedSubject rule subject g' = a.subjectActs rule g subject := by
  rw [performedSubject, subjectActs, hrule.nameSource.nameIn_eq hraw subject]
  split
  · rfl
  · have hchildren : ∀ relation ∈ rule.children,
        a.vocabulary.IsRawPredicate relation.predicate ∧
          relation.nameSource.ReadsRaw a.vocabulary :=
      fun relation hr => ⟨hrule.children relation hr, hrule.children_nameSource hr⟩
    have hproperties : ∀ relation ∈ rule.properties, relation.nameSource.ReadsRaw a.vocabulary :=
      fun relation hr => hrule.properties_nameSource hr
    -- the three parts of the plan are performed from three graphs with the same raw facts
    set enrolled := a.annotateRoot subject (rule.nameSource.nameIn g subject) g'
    have henrolled : enrolled.rawFacts a.vocabulary = g.rawFacts a.vocabulary :=
      ((Act.enrol subject _).rawFacts_write g').trans hraw
    have hadopted := (Act.rawFacts_writeAll (a := a)
      (rule.children.flatMap (rule.scopeActs subject g)) enrolled).trans henrolled
    dsimp only
    rw [performedScopes_eq henrolled hchildren, performedProperties_eq hadopted hproperties]

theorem performedRule_eq (hrule : rule.ReadsRaw a.vocabulary) :
    a.performedRule rule g' = a.acts rule g := by
  rw [performedRule, hrule.subjects_eq hraw]
  exact Act.inTurn_eq_flatMap (fun subject _ g' hraw => performedSubject_eq hraw hrule subject) hraw

end Steps

/-- **The pass of a rule that reads raw facts follows its plan**, which may be read off any graph
with the same raw facts. -/
theorem annotate_eq {g' : Graph} (hrule : rule.ReadsRaw a.vocabulary)
    (hraw : g'.rawFacts a.vocabulary = g.rawFacts a.vocabulary) :
    a.annotate rule g' = (a.plannedReport g rule, Act.writeAll a (a.acts rule g) g') := by
  rw [annotate_eq_performed, performedRule_eq hraw hrule]
  rfl

/-- **The passes of rules that read raw facts follow their plans**, one after the other. -/
theorem annotateAll_eq {rules : List Rule} {g' : Graph}
    (hrules : ∀ rule ∈ rules, rule.ReadsRaw a.vocabulary)
    (hraw : g'.rawFacts a.vocabulary = g.rawFacts a.vocabulary) :
    a.annotateAll rules g' = (rules.map (a.plannedReport g),
      Act.writeAll a (rules.flatMap fun rule => a.acts rule g) g') := by
  induction rules generalizing g' with
  | nil => rfl
  | cons rule rules ih =>
      obtain ⟨hrule, hrules⟩ := List.forall_mem_cons.1 hrules
      have hrest := ih hrules ((Act.rawFacts_writeAll (a.acts rule g) g').trans hraw)
      rw [annotateAll, annotate_eq hrule hraw]
      dsimp only
      rw [hrest, List.map_cons, List.flatMap_cons, Act.writeAll_append]

end Annotator

end FactHierarchy
