import FactHierarchy.Proofs.Annotation.Trace

/-!
# Annotation of graphs that agree

Where two graphs agree about the facts that rules read, annotation does the same to both of them,
and they agree afterwards (`Annotator.agree_annotateAll`). Nothing is asked of the rules: they may
read annotation facts that earlier passes have written.
-/

set_option autoImplicit false

namespace FactHierarchy

/-! ## What a rule reads -/

/-- The predicates that a name source reads. -/
def NameSource.predicates : NameSource → List Node
  | .fromValue predicate => [predicate]
  | _ => []

/-- **The predicates that a rule reads**: that of its selector, those of its child relations and
those of its name sources. -/
def Rule.predicates (r : Rule) : List Node :=
  r.selector.predicate ::
    (r.children.map Relation.predicate ++ r.nameSources.flatMap NameSource.predicates)

/-- The predicate of the fact is one of these. -/
def Fact.isUnder (predicates : List Node) (f : Fact) : Bool := f.predicate ∈ predicates

variable {read : List Node} {g g' : Graph}

theorem Graph.Agree.objects_eq_under {s q : Node} (h : g.Agree (Fact.isUnder read) g')
    (hq : q ∈ read) : g.objects s q = g'.objects s q :=
  h.objects_eq fun _ => decide_eq_true hq

theorem NameSource.nameIn_eq_of_agree {source : NameSource} (h : g.Agree (Fact.isUnder read) g')
    (hsource : source.predicates ⊆ read) (n : Node) : source.nameIn g n = source.nameIn g' n := by
  cases source with
  | fixed name => rfl
  | fromValue predicate =>
      exact Graph.valueText_congr (h.objects_eq_under (hsource (List.mem_cons_self ..)))
  | localName => rfl

namespace Rule

variable {r : Rule}

theorem selector_mem_predicates : r.selector.predicate ∈ r.predicates := List.mem_cons_self ..

theorem child_mem_predicates {relation : Relation} (h : relation ∈ r.children) :
    relation.predicate ∈ r.predicates :=
  List.mem_cons_of_mem _ (List.mem_append_left _ (List.mem_map_of_mem h))

theorem source_subset_predicates {source : NameSource} (h : source ∈ r.nameSources) :
    source.predicates ⊆ r.predicates := fun _ hq =>
  List.mem_cons_of_mem _ (List.mem_append_right _ (List.mem_flatMap.2 ⟨source, h, hq⟩))

end Rule

/-! ## Passes -/

/-- The passes have done the same so far, and their graphs agree. -/
structure AnnotationPass.Agree (P : Fact → Bool) (s s' : AnnotationPass) : Prop where
  graph : s.graph.Agree P s'.graph
  processed_eq : s.processed = s'.processed
  omissions_eq : s.omissions = s'.omissions

theorem AnnotationPass.Agree.perform {P : Fact → Bool} {a : Annotator} {s s' : AnnotationPass}
    {act : Act} (h : s.Agree P s')
    (hnames : ∀ root ∈ act.enrolled, ∀ t, P ⟨root, a.vocabulary.objectName, t⟩ = true) :
    (s.perform a act).Agree P (s'.perform a act) where
  graph := Act.agree_write h.graph hnames
  processed_eq := congrArg (· ++ act.enrolled.toList) h.processed_eq
  omissions_eq := congrArg (· ++ act.omission.toList) h.omissions_eq

/-- An act that enrols nobody looks for no names. -/
theorem AnnotationPass.Agree.perform_of_none {P : Fact → Bool} {a : Annotator}
    {s s' : AnnotationPass} {act : Act} (h : s.Agree P s') (hnone : act.enrolled = none) :
    (s.perform a act).Agree P (s'.perform a act) := by
  refine h.perform fun root hroot => ?_
  rw [hnone] at hroot
  cases hroot

namespace Annotator

open AnnotationPass

variable {a : Annotator} {rule : Rule} {s s' : AnnotationPass}

theorem agree_annotateChildren {parent : Node} {relation : Relation} {children : List Node}
    {names : TakenNames} (hsource : relation.nameSource.predicates ⊆ read)
    (h : s.Agree (Fact.isUnder read) s') :
    (a.annotateChildren rule parent relation children names s).Agree (Fact.isUnder read)
      (a.annotateChildren rule parent relation children names s') := by
  induction children generalizing names s s' with
  | nil => exact h
  | cons child children ih =>
      rw [annotateChildren, annotateChildren,
        NameSource.nameIn_eq_of_agree h.graph hsource child]
      split
      · rw [← perform_leaveOut (a := a), ← perform_leaveOut (a := a)]
        exact ih (h.perform_of_none rfl)
      · obtain ⟨given, names⟩ := names.claim (relation.nameSource.nameIn s'.graph child)
        dsimp only
        rw [← perform_adopt, ← perform_adopt]
        exact ih (h.perform_of_none rfl)

theorem agree_annotateScopes {parent : Node} {relations : List Relation}
    (hrelations : ∀ relation ∈ relations,
      relation.predicate ∈ read ∧ relation.nameSource.predicates ⊆ read)
    (h : s.Agree (Fact.isUnder read) s') :
    (relations.foldl (a.annotateScope rule parent) s).Agree (Fact.isUnder read)
      (relations.foldl (a.annotateScope rule parent) s') := by
  induction relations generalizing s s' with
  | nil => exact h
  | cons relation relations ih =>
      obtain ⟨⟨hpredicate, hsource⟩, hrelations⟩ := List.forall_mem_cons.1 hrelations
      refine ih hrelations ?_
      rw [annotateScope, annotateScope, h.graph.objects_eq_under hpredicate]
      exact agree_annotateChildren hsource h

theorem agree_annotateProperties {subject : Node} {relations : List Relation}
    {described : List Node}
    (hrelations : ∀ relation ∈ relations, relation.nameSource.predicates ⊆ read)
    (h : s.Agree (Fact.isUnder read) s') :
    (a.annotateProperties rule subject relations described s).Agree (Fact.isUnder read)
      (a.annotateProperties rule subject relations described s') := by
  induction relations generalizing described s s' with
  | nil => exact h
  | cons relation relations ih =>
      obtain ⟨hsource, hrelations⟩ := List.forall_mem_cons.1 hrelations
      rw [annotateProperties, annotateProperties,
        NameSource.nameIn_eq_of_agree h.graph hsource subject]
      split
      · rw [← perform_leaveOut (a := a), ← perform_leaveOut (a := a)]
        exact ih hrelations (h.perform_of_none rfl)
      · dsimp only
        set name := relation.nameSource.nameIn s'.graph subject
        set schema := propertyNode name rule.id a.propertyNamespace
        -- the subject is linked and the rest follows, whether or not the schema is described
        have hlink : ∀ s s' : AnnotationPass, s.Agree (Fact.isUnder read) s' →
            (a.annotateProperties rule subject relations (schema :: described)
              (s.perform a (.link subject schema))).Agree (Fact.isUnder read)
            (a.annotateProperties rule subject relations (schema :: described)
              (s'.perform a (.link subject schema))) :=
          fun s s' hs => ih hrelations (hs.perform_of_none rfl)
        by_cases hdescribed : schema ∈ described
        · rw [if_pos hdescribed, if_pos hdescribed, ← perform_link, ← perform_link]
          exact hlink s s' h
        · have hdescribe :
              (s.perform a (.describe schema name relation.predicate)).Agree (Fact.isUnder read)
                (s'.perform a (.describe schema name relation.predicate)) := h.perform_of_none rfl
          rw [if_neg hdescribed, if_neg hdescribed]
          have hrest := hlink _ _ hdescribe
          rwa [perform_link, perform_link, perform_describe, perform_describe] at hrest

section Rules

variable (hnames : a.vocabulary.objectName ∈ read)
include hnames

theorem agree_annotateSubject (hrule : rule.predicates ⊆ read) (subject : Node)
    (h : s.Agree (Fact.isUnder read) s') :
    (a.annotateSubject rule s subject).Agree (Fact.isUnder read)
      (a.annotateSubject rule s' subject) := by
  have hsource : ∀ {source : NameSource}, source ∈ rule.nameSources → source.predicates ⊆ read :=
    fun hmem => List.Subset.trans (Rule.source_subset_predicates hmem) hrule
  have hchildren : ∀ relation ∈ rule.children,
      relation.predicate ∈ read ∧ relation.nameSource.predicates ⊆ read := by
    intro relation hrelation
    refine ⟨hrule (Rule.child_mem_predicates hrelation), hsource ?_⟩
    exact List.mem_cons_of_mem _ (List.mem_map_of_mem (List.mem_append_left _ hrelation))
  have hproperties : ∀ relation ∈ rule.properties, relation.nameSource.predicates ⊆ read := by
    intro relation hrelation
    refine hsource (List.mem_cons_of_mem _ (List.mem_map_of_mem ?_))
    exact List.mem_append_right _ hrelation
  rw [annotateSubject, annotateSubject,
    NameSource.nameIn_eq_of_agree h.graph (hsource (List.mem_cons_self ..)) subject]
  split
  · rw [← perform_leaveOut (a := a), ← perform_leaveOut (a := a)]
    exact h.perform_of_none rfl
  · rw [← perform_enrol, ← perform_enrol]
    refine agree_annotateProperties hproperties (agree_annotateScopes hchildren (h.perform ?_))
    exact fun root _ t => decide_eq_true hnames

theorem agree_annotateSubjects (hrule : rule.predicates ⊆ read) (subjects : List Node)
    (h : s.Agree (Fact.isUnder read) s') :
    (subjects.foldl (a.annotateSubject rule) s).Agree (Fact.isUnder read)
      (subjects.foldl (a.annotateSubject rule) s') := by
  induction subjects generalizing s s' with
  | nil => exact h
  | cons subject subjects ih => exact ih (agree_annotateSubject hnames hrule subject h)

/-- **The pass of a rule does the same to graphs that agree about what the rule reads.** -/
theorem agree_annotate (hrule : rule.predicates ⊆ read) (h : g.Agree (Fact.isUnder read) g') :
    (a.annotate rule g).1 = (a.annotate rule g').1 ∧
      (a.annotate rule g).2.Agree (Fact.isUnder read) (a.annotate rule g').2 := by
  have hsubjects : rule.selector.subjects g = rule.selector.subjects g' := by
    have hfits : ∀ f : Fact, (Pattern.having rule.selector.predicate rule.selector.value).fits f =
        true → Fact.isUnder read f = true := by
      intro f hf
      obtain ⟨hpredicate, -⟩ := Pattern.fits_having.1 hf
      exact decide_eq_true (hpredicate ▸ hrule Rule.selector_mem_predicates)
    rw [Selector.subjects, Selector.subjects, Graph.subjects, Graph.subjects,
      h.filter_eq (fun f _ => hfits f) (fun f _ => hfits f)]
  have hstart : AnnotationPass.Agree (Fact.isUnder read) { graph := g } { graph := g' } :=
    ⟨h, rfl, rfl⟩
  have hend := agree_annotateSubjects (a := a) hnames hrule (rule.selector.subjects g') hstart
  rw [annotate, annotate, hsubjects]
  dsimp only
  rw [hend.processed_eq, hend.omissions_eq]
  exact ⟨rfl, hend.graph⟩

/-- **The passes of rules do the same to graphs that agree about what the rules read.** -/
theorem agree_annotateAll {rules : List Rule} (hrules : ∀ rule ∈ rules, rule.predicates ⊆ read)
    (h : g.Agree (Fact.isUnder read) g') :
    (a.annotateAll rules g).1 = (a.annotateAll rules g').1 ∧
      (a.annotateAll rules g).2.Agree (Fact.isUnder read) (a.annotateAll rules g').2 := by
  induction rules generalizing g g' with
  | nil => exact ⟨rfl, h⟩
  | cons rule rules ih =>
      obtain ⟨hrule, hrules⟩ := List.forall_mem_cons.1 hrules
      obtain ⟨hreport, hgraph⟩ := agree_annotate (a := a) hnames hrule h
      obtain ⟨hreports, hend⟩ := ih hrules hgraph
      rw [annotateAll, annotateAll]
      dsimp only
      rw [hreport, hreports]
      exact ⟨rfl, hend⟩

end Rules

end Annotator

end FactHierarchy
