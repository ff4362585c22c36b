import FactHierarchy.Proofs.Annotation.Trace
import FactHierarchy.Proofs.TakenNames

/-!
# Placements

The acts that enrol roots and adopt children are the *placements* of a rule. They alone say which
objects there are, what they are called and what they stand below. What a rule makes of the
properties of its subjects plays no part in this. So when a rule reads raw facts apart from its
properties, its placements are known before its pass begins (`Annotator.samePlacements_performedRule`),
and they decide how an unannotated graph is annotated (`Annotator.follows_annotate`).

No placement gives an empty name. In a scope in which all names differ, each child gets its own
name (`Rule.name_eq_of_mem_childActs`).
-/

set_option autoImplicit false

namespace FactHierarchy

/-! ## The placements of a scope -/

namespace Rule

variable {rule : Rule} {parent child : Node} {relation : Relation} {g : Graph}
  {children : List Node} {names : TakenNames} {name : String} {act : Act}

/-- The acts for the children of a scope leave out a child or adopt one, under no empty name. -/
theorem cases_of_mem_childActs (h : act ∈ rule.childActs parent relation g children names) :
    (∃ entry, act = .leaveOut entry) ∨ ∃ child ∈ children, ∃ name, act = .adopt parent child name ∧
      relation.nameSource.nameIn g child ≠ "" ∧ name ≠ "" := by
  induction children generalizing names with
  | nil => cases h
  | cons first children ih =>
      have hrest : ∀ {names}, act ∈ rule.childActs parent relation g children names →
          (∃ entry, act = .leaveOut entry) ∨ ∃ child ∈ first :: children, ∃ name,
            act = .adopt parent child name ∧ relation.nameSource.nameIn g child ≠ "" ∧
              name ≠ "" := by
        intro names h
        refine (ih h).imp_right ?_
        rintro ⟨child, hchild, hadopt⟩
        exact ⟨child, List.mem_cons_of_mem first hchild, hadopt⟩
      rw [childActs] at h
      split at h
      · rcases List.mem_cons.1 h with rfl | h
        · exact .inl ⟨_, rfl⟩
        · exact hrest h
      · next hname =>
        have hne : relation.nameSource.nameIn g first ≠ "" := by
          simpa [String.isEmpty_iff] using hname
        rcases List.mem_cons.1 h with rfl | h
        · exact .inr ⟨first, List.mem_cons_self .., _, rfl, hne,
            TakenNames.claim_fst_ne_empty hne⟩
        · exact hrest h

/-- Every child that has a name is adopted. -/
theorem exists_adopt_mem_childActs (names : TakenNames) (hchild : child ∈ children)
    (hname : relation.nameSource.nameIn g child ≠ "") :
    ∃ name, .adopt parent child name ∈ rule.childActs parent relation g children names := by
  induction children generalizing names with
  | nil => cases hchild
  | cons first children ih =>
      rw [childActs]
      split
      · next hempty =>
        rcases List.mem_cons.1 hchild with rfl | hchild
        · exact absurd (String.isEmpty_iff.1 hempty) hname
        · obtain ⟨name, hadopt⟩ := ih names hchild
          exact ⟨name, List.mem_cons_of_mem _ hadopt⟩
      · rcases List.mem_cons.1 hchild with rfl | hchild
        · exact ⟨_, List.mem_cons_self ..⟩
        · obtain ⟨name, hadopt⟩ := ih (names.claim _).2 hchild
          exact ⟨name, List.mem_cons_of_mem _ hadopt⟩

/-- **Children whose names all differ get their own names**, as long as these are free. -/
theorem name_eq_of_mem_childActs
    (hdiffer : (children.map (relation.nameSource.nameIn g)).Nodup)
    (hfree : ∀ child ∈ children, names.counts[relation.nameSource.nameIn g child]? = none)
    (h : .adopt parent child name ∈ rule.childActs parent relation g children names) :
    name = relation.nameSource.nameIn g child := by
  induction children generalizing names with
  | nil => cases h
  | cons first children ih =>
      obtain ⟨hfirst, hdiffer⟩ := List.nodup_cons.1 hdiffer
      obtain ⟨hfreefirst, hfree⟩ := List.forall_mem_cons.1 hfree
      rw [childActs] at h
      split at h
      · rcases List.mem_cons.1 h with heq | h
        · cases heq
        · exact ih hdiffer hfree h
      · obtain ⟨hgiven, hkeep⟩ := TakenNames.claim_of_free hfreefirst
        generalize names.claim (relation.nameSource.nameIn g first) = claimed at h hgiven hkeep
        obtain ⟨given, names⟩ := claimed
        rcases List.mem_cons.1 h with heq | h
        · obtain ⟨-, rfl, rfl⟩ := Act.adopt.inj heq
          exact hgiven
        · -- the name that has just been taken is none of those still to be claimed
          refine ih hdiffer (fun other hother => ?_) h
          rw [hkeep, hfree other hother]
          intro heq
          refine hfirst ?_
          rw [← heq]
          exact List.mem_map_of_mem hother

end Rule

/-! ## The placements of a rule -/

theorem Act.marked_enrol_ne_nil (n : Node) (name : String) : (enrol n name).marked ≠ [] :=
  List.cons_ne_nil n []

theorem Act.marked_adopt_ne_nil (p c : Node) (name : String) : (adopt p c name).marked ≠ [] :=
  List.cons_ne_nil c []

namespace Annotator

variable {a : Annotator} {rule : Rule} {g : Graph} {subject : Node} {relations : List Relation}
  {described : List Node} {act : Act}

/-- The acts for the properties of a subject leave it out, describe a property-schema node or link
the subject to one. -/
theorem cases_of_mem_propertyActs
    (h : act ∈ a.propertyActs rule subject g relations described) :
    (∃ entry, act = .leaveOut entry) ∨
      (∃ schema name predicate, act = .describe schema name predicate) ∨
      ∃ relation ∈ relations, relation.nameSource.nameIn g subject ≠ "" ∧
        act = .link subject
          (propertyNode (relation.nameSource.nameIn g subject) rule.id a.propertyNamespace) := by
  induction relations generalizing described with
  | nil => cases h
  | cons first relations ih =>
      have hrest : ∀ {described}, act ∈ a.propertyActs rule subject g relations described →
          (∃ entry, act = .leaveOut entry) ∨
            (∃ schema name predicate, act = .describe schema name predicate) ∨
            ∃ relation ∈ first :: relations, relation.nameSource.nameIn g subject ≠ "" ∧
              act = .link subject
                (propertyNode (relation.nameSource.nameIn g subject) rule.id
                  a.propertyNamespace) := by
        intro described h
        refine (ih h).imp_right (Or.imp_right ?_)
        rintro ⟨relation, hrelation, hlink⟩
        exact ⟨relation, List.mem_cons_of_mem first hrelation, hlink⟩
      rw [propertyActs] at h
      split at h
      · rcases List.mem_cons.1 h with rfl | h
        · exact .inl ⟨_, rfl⟩
        · exact hrest h
      · next hname =>
        have hne : first.nameSource.nameIn g subject ≠ "" := by
          simpa [String.isEmpty_iff] using hname
        rcases List.mem_append.1 h with h | h
        · split at h
          · cases h
          · exact .inr (.inl ⟨_, _, _, List.mem_singleton.1 h⟩)
        · rcases List.mem_cons.1 h with rfl | h
          · exact .inr (.inr ⟨first, List.mem_cons_self .., hne, rfl⟩)
          · exact hrest h

/-- What a rule plans to do, other than to leave out a resource, it does for a subject that has a
name. -/
theorem mem_acts_iff_of_ne (hact : ∀ entry, act ≠ .leaveOut entry) :
    act ∈ a.acts rule g ↔
      ∃ subject ∈ rule.selector.subjects g, rule.nameSource.nameIn g subject ≠ "" ∧
        (act = .enrol subject (rule.nameSource.nameIn g subject) ∨
          (∃ relation ∈ rule.children, act ∈ rule.scopeActs subject g relation) ∨
            act ∈ a.propertyActs rule subject g rule.properties []) := by
  rw [acts, List.mem_flatMap]
  refine exists_congr fun subject => and_congr_right fun _ => ?_
  rw [subjectActs]
  split
  · next hempty =>
    rw [String.isEmpty_iff] at hempty
    exact iff_of_false (fun hmem => hact _ (List.mem_singleton.1 hmem)) fun h => h.1 hempty
  · next hname =>
    rw [String.isEmpty_iff] at hname
    rw [List.mem_cons, List.mem_append, List.mem_flatMap, and_iff_right hname]

/-- What a rule plans to place, it places for a subject that has a name. -/
theorem mem_acts_iff (hact : act.marked ≠ []) :
    act ∈ a.acts rule g ↔
      ∃ subject ∈ rule.selector.subjects g, rule.nameSource.nameIn g subject ≠ "" ∧
        (act = .enrol subject (rule.nameSource.nameIn g subject) ∨
          ∃ relation ∈ rule.children, act ∈ rule.scopeActs subject g relation) := by
  -- nothing is placed for the sake of properties
  have hproperty : ∀ subject, act ∉ a.propertyActs rule subject g rule.properties [] := by
    intro subject hmem
    obtain ⟨_, rfl⟩ | ⟨_, _, _, rfl⟩ | ⟨_, -, -, rfl⟩ := cases_of_mem_propertyActs hmem
    · exact hact rfl
    · exact hact rfl
    · exact hact rfl
  rw [mem_acts_iff_of_ne fun entry heq => hact (by rw [heq]; rfl)]
  simp only [or_iff_left (hproperty _)]

/-- A rule plans to enrol the subjects that have a name. -/
theorem enrol_mem_acts_iff {n : Node} {name : String} :
    .enrol n name ∈ a.acts rule g ↔
      n ∈ rule.selector.subjects g ∧ name = rule.nameSource.nameIn g n ∧ name ≠ "" := by
  rw [mem_acts_iff (Act.marked_enrol_ne_nil n name)]
  constructor
  · rintro ⟨subject, hmem, hname, heq | ⟨relation, -, hscope⟩⟩
    · obtain ⟨rfl, rfl⟩ := Act.enrol.inj heq
      exact ⟨hmem, rfl, hname⟩
    · -- a scope enrols nobody
      obtain ⟨entry, heq⟩ | ⟨child, -, given, heq, -⟩ := Rule.cases_of_mem_childActs hscope
      · cases heq
      · cases heq
  · rintro ⟨hmem, rfl, hname⟩
    exact ⟨n, hmem, hname, .inl rfl⟩

/-- A rule plans to put children below the subjects that have a name. -/
theorem adopt_mem_acts_iff {p c : Node} {name : String} :
    .adopt p c name ∈ a.acts rule g ↔
      p ∈ rule.selector.subjects g ∧ rule.nameSource.nameIn g p ≠ "" ∧
        ∃ relation ∈ rule.children, .adopt p c name ∈ rule.scopeActs p g relation := by
  rw [mem_acts_iff (Act.marked_adopt_ne_nil p c name)]
  constructor
  · rintro ⟨subject, hmem, hname, heq | ⟨relation, hrelation, hscope⟩⟩
    · cases heq
    · -- a scope adopts children for its own subject
      obtain ⟨entry, heq⟩ | ⟨child, -, given, heq, -⟩ := Rule.cases_of_mem_childActs hscope
      · cases heq
      · obtain ⟨rfl, -, -⟩ := Act.adopt.inj heq
        exact ⟨hmem, hname, relation, hrelation, hscope⟩
  · rintro ⟨hmem, hname, relation, hrelation, hscope⟩
    exact ⟨p, hmem, hname, .inr ⟨relation, hrelation, hscope⟩⟩

end Annotator

/-! ## Rules without their properties -/

/-- The rule without its properties. -/
def Rule.withoutProperties (rule : Rule) : Rule := { rule with properties := [] }

namespace Rule

variable {rule : Rule} {parent : Node} {relation : Relation} {g : Graph} {children : List Node}
  {names : TakenNames}

theorem childActs_withoutProperties :
    rule.withoutProperties.childActs parent relation g children names =
      rule.childActs parent relation g children names := by
  induction children generalizing names with
  | nil => rfl
  | cons child children ih =>
      rw [childActs, childActs]
      simp only [ih]
      rfl

end Rule

/-- **A rule places the same without its properties.** -/
theorem Annotator.mem_acts_withoutProperties {a : Annotator} {rule : Rule} {g : Graph} {act : Act}
    (hact : act.marked ≠ []) : act ∈ a.acts rule.withoutProperties g ↔ act ∈ a.acts rule g := by
  have hscope : ∀ subject relation, rule.withoutProperties.scopeActs subject g relation =
      rule.scopeActs subject g relation := fun _ _ => Rule.childActs_withoutProperties
  rw [mem_acts_iff hact, mem_acts_iff hact]
  simp only [hscope]
  rfl

/-- Two lists of acts hold the same placements. -/
def Act.SamePlacements (acts acts' : List Act) : Prop :=
  ∀ act : Act, act.marked ≠ [] → (act ∈ acts ↔ act ∈ acts')

namespace Annotator

open AnnotationPass

variable {a : Annotator} {rule : Rule} {g : Graph} {s : AnnotationPass}

theorem subjectActs_withoutProperties (subject : Node) :
    a.subjectActs rule.withoutProperties g subject =
      if (rule.nameSource.nameIn g subject).isEmpty then [.leaveOut ⟨rule.id, subject, .root⟩]
      else .enrol subject (rule.nameSource.nameIn g subject) ::
        rule.children.flatMap (rule.scopeActs subject g) := by
  have hscopes : rule.children.flatMap (rule.withoutProperties.scopeActs subject g) =
      rule.children.flatMap (rule.scopeActs subject g) :=
    List.flatMap_congr fun relation _ => Rule.childActs_withoutProperties
  rw [← hscopes, ← List.append_nil (rule.children.flatMap _)]
  rfl

/-- Nothing is placed for the sake of properties. -/
theorem marked_of_mem_performedProperties {subject : Node} {relations : List Relation}
    {described : List Node} {act : Act}
    (hact : act ∈ a.performedProperties rule subject relations described g) : act.marked = [] := by
  induction relations generalizing described g with
  | nil => cases hact
  | cons relation relations ih =>
      rw [performedProperties] at hact
      split at hact
      · rcases List.mem_cons.1 hact with rfl | hact
        · rfl
        · exact ih hact
      · rcases List.mem_append.1 hact with hact | hact
        · rcases List.mem_append.1 hact with hact | hact
          · split at hact
            · cases hact
            · rw [List.mem_singleton.1 hact]
              rfl
          · rw [List.mem_singleton.1 hact]
            rfl
        · exact ih hact

/-- What is done for a subject places what is planned for it. -/
theorem samePlacements_performedSubject (hrule : rule.withoutProperties.ReadsRaw a.vocabulary)
    {g' : Graph} (hraw : g'.rawFacts a.vocabulary = g.rawFacts a.vocabulary) (subject : Node) :
    Act.SamePlacements (a.performedSubject rule subject g')
      (a.subjectActs rule.withoutProperties g subject) := by
  have hname : rule.nameSource.nameIn g' subject = rule.nameSource.nameIn g subject :=
    hrule.nameSource.nameIn_eq hraw subject
  rw [performedSubject, subjectActs_withoutProperties, hname]
  split
  · exact fun act _ => Iff.rfl
  · have hchildren : ∀ relation ∈ rule.children,
        a.vocabulary.IsRawPredicate relation.predicate ∧
          relation.nameSource.ReadsRaw a.vocabulary :=
      fun relation hr => ⟨hrule.children relation hr, hrule.children_nameSource hr⟩
    set enrolled := a.annotateRoot subject (rule.nameSource.nameIn g subject) g'
    have henrolled : enrolled.rawFacts a.vocabulary = g.rawFacts a.vocabulary :=
      ((Act.enrol subject _).rawFacts_write g').trans hraw
    intro act hact
    dsimp only
    rw [performedScopes_eq henrolled hchildren, List.mem_cons, List.mem_append, List.mem_cons]
    -- the plan says what is enrolled and adopted, and the rest places nothing
    exact or_congr_right (or_iff_left fun hmem => hact (marked_of_mem_performedProperties hmem))

/-! ## Plans and what comes of them -/

/-- **The placements of a pass are known before it begins**, whatever it does about properties. -/
theorem samePlacements_performedRule (hrule : rule.withoutProperties.ReadsRaw a.vocabulary)
    (g : Graph) :
    Act.SamePlacements (a.performedRule rule g) (a.acts rule.withoutProperties g) := by
  have hturns : ∀ (subjects : List Node) {g' : Graph},
      g'.rawFacts a.vocabulary = g.rawFacts a.vocabulary →
      Act.SamePlacements (Act.inTurn a (a.performedSubject rule) subjects g')
        (subjects.flatMap (a.subjectActs rule.withoutProperties g)) := by
    intro subjects
    induction subjects with
    | nil => exact fun _ act _ => Iff.rfl
    | cons subject subjects ih =>
        intro g' hraw act hact
        have hfirst := samePlacements_performedSubject hrule hraw subject act hact
        have hrest := ih ((Act.rawFacts_writeAll (a.performedSubject rule subject g') g').trans hraw)
          act hact
        rw [Act.inTurn, List.flatMap_cons, List.mem_append, List.mem_append, hfirst, hrest]
  exact hturns _ rfl

end Annotator

/-! ## The graph after a pass -/

namespace Act

variable {acts : List Act} {n : Node}

/-- The name that a placement gives, and the node that it gives it to. -/
def given : Act → Option (Node × String)
  | enrol root name => some (root, name)
  | adopt _ child name => some (child, name)
  | _ => none

theorem mem_marked_iff {act : Act} : n ∈ act.marked ↔ ∃ name, act.given = some (n, name) := by
  cases act <;> simp [marked, given, eq_comm]

theorem marked_ne_nil {act : Act} {name : String} (h : act.given = some (n, name)) :
    act.marked ≠ [] := List.ne_nil_of_mem (mem_marked_iff.2 ⟨name, h⟩)

/-- A name of a node after an act was there before or is given by the act. -/
theorem mem_rename {act : Act} {names : List Term} {t : Term} (h : t ∈ act.rename n names) :
    t ∈ names ∨ ∃ name, act.given = some (n, name) ∧ t = .literal (.string name) := by
  cases act with
  | enrol root name =>
      simp only [rename] at h
      split at h
      · next hroot =>
        obtain ⟨rfl, -⟩ := hroot
        exact .inr ⟨name, rfl, List.mem_singleton.1 h⟩
      · exact .inl h
  | adopt parent child name =>
      simp only [rename] at h
      split at h
      · next hchild =>
        subst hchild
        exact .inr ⟨name, rfl, List.mem_singleton.1 h⟩
      · exact .inl h
  | leaveOut _ | describe _ _ _ | link _ _ => exact .inl h

theorem mem_renameAll {names : List Term} {t : Term} (h : t ∈ renameAll acts n names) :
    t ∈ names ∨ ∃ act ∈ acts, ∃ name, act.given = some (n, name) ∧
      t = .literal (.string name) := by
  induction acts generalizing names with
  | nil => exact .inl h
  | cons act acts ih =>
      rcases ih h with hfirst | ⟨later, hlater, hgiven⟩
      · exact (mem_rename hfirst).imp_right fun hgiven => ⟨act, List.mem_cons_self .., hgiven⟩
      · exact .inr ⟨later, List.mem_cons_of_mem act hlater, hgiven⟩

end Act

/-- **No placement gives an empty name.** -/
theorem Annotator.name_ne_empty_of_mem_acts {a : Annotator} {rule : Rule} {g : Graph} {act : Act}
    {n : Node} {name : String} (h : act ∈ a.acts rule g)
    (hgiven : act.given = some (n, name)) : name ≠ "" := by
  cases act with
  | enrol root given =>
      obtain ⟨rfl, rfl⟩ := Prod.mk.inj (Option.some.inj hgiven)
      exact (enrol_mem_acts_iff.1 h).2.2
  | adopt parent child given =>
      obtain ⟨rfl, rfl⟩ := Prod.mk.inj (Option.some.inj hgiven)
      obtain ⟨-, -, relation, -, hscope⟩ := adopt_mem_acts_iff.1 h
      obtain ⟨entry, heq⟩ | ⟨child, -, given, heq, -, hne⟩ := Rule.cases_of_mem_childActs hscope
      · cases heq
      · obtain ⟨-, -, rfl⟩ := Act.adopt.inj heq
        exact hne
  | leaveOut _ | describe _ _ _ | link _ _ => cases hgiven

/-- **The graph is annotated by these placements.** -/
structure Graph.Follows (v : Vocabulary) (placements : List Act) (g : Graph) : Prop where
  marked : ∀ n, v.markerFact n ∈ g.toList ↔ ∃ act ∈ placements, n ∈ act.marked
  parents : ∀ c p, g.IsChild v c p ↔ ∃ name, .adopt p c name ∈ placements
  named : ∀ n t, t ∈ g.objects n v.objectName →
    ∃ act ∈ placements, ∃ name, act.given = some (n, name) ∧ t = .literal (.string name)

namespace Annotator

variable {a : Annotator} {rule : Rule} {g : Graph}

/-- **The pass of a rule over an unannotated graph follows its plan**, whatever its properties
read. -/
theorem follows_annotate (hv : a.vocabulary.Distinct)
    (hrule : rule.withoutProperties.ReadsRaw a.vocabulary) (hg : g.Unannotated a.vocabulary) :
    (a.annotate rule g).2.Follows a.vocabulary (a.acts rule.withoutProperties g) := by
  have hsame := samePlacements_performedRule hrule g
  have hgraph := congrArg Prod.snd (a.annotate_eq_performed rule g)
  set acts := a.performedRule rule g
  have hnot : ∀ f ∈ g.toList, a.vocabulary.isRaw f = false → False := by
    intro f hf hraw
    rw [hg f hf] at hraw
    cases hraw
  rw [hgraph]
  dsimp only
  constructor
  case marked =>
    intro n
    rw [Act.mem_writeAll acts g (hv.ne_objectName (by simp [Vocabulary.markerFact])),
      or_iff_right fun hf => hnot _ hf (Vocabulary.isRaw_markerFact n)]
    simp only [(Act.factsByPredicate hv _).marker]
    constructor
    · rintro ⟨act, hact, hn⟩
      exact ⟨act, (hsame act (List.ne_nil_of_mem hn)).1 hact, hn⟩
    · rintro ⟨act, hact, hn⟩
      exact ⟨act, (hsame act (List.ne_nil_of_mem hn)).2 hact, hn⟩
  case parents =>
    intro c p
    have hraw : a.vocabulary.isRaw (a.vocabulary.parentFact c p) = false :=
      Vocabulary.isRaw_of_mem_predicates (by simp [Vocabulary.parentFact, Vocabulary.predicates])
    rw [Graph.IsChild,
      Act.mem_writeAll acts g (hv.ne_objectName (by simp [Vocabulary.parentFact])),
      or_iff_right fun hf => hnot _ hf hraw, Vocabulary.parentFact]
    simp only [(Act.factsByPredicate hv _).parent]
    constructor
    · rintro ⟨act, hact, q, name, rfl, heq⟩
      obtain rfl : p = q := Term.node.inj heq
      exact ⟨name, (hsame _ (Act.marked_adopt_ne_nil p c name)).1 hact⟩
    · rintro ⟨name, hact⟩
      exact ⟨_, (hsame _ (Act.marked_adopt_ne_nil p c name)).2 hact, p, name, rfl, rfl⟩
  case named =>
    intro n t ht
    rw [Act.objectName_writeAll hv] at ht
    rcases Act.mem_renameAll ht with hold | ⟨act, hact, name, hgiven, rfl⟩
    · refine (hnot _ (Graph.mem_objects.1 hold) (Vocabulary.isRaw_of_mem_predicates ?_)).elim
      simp [Vocabulary.predicates]
    · exact ⟨act, (hsame act (Act.marked_ne_nil hgiven)).1 hact, name, hgiven, rfl⟩

end Annotator

end FactHierarchy
