import FactHierarchy.Proofs.Annotation.Precedence
import FactHierarchy.Proofs.RuleCheck
import FactHierarchy.Proofs.Run.Annotated
import Mathlib.Data.List.Count

/-!
# What a pass reports

A pass reports the subjects that it has processed and the resources that it has left out. A rule
that reads raw facts cannot be misled by what its own pass writes: for such a rule both lists can be
told from the graph that the pass starts from.

The processed subjects are those that have a name, in the order of the facts that select them. What
is left out is counted entry by entry (`Rule.omissionsDue`): a selected subject without a name, a
child without a name once for each child relation that leads to it, and a property without a name
once for each property relation. No entry is missing, repeated or made up
(`Annotator.reports_every_omission_once`).
-/

set_option autoImplicit false

namespace FactHierarchy

/-! ## What is due -/

instance (r : Rule) (g : Graph) (n : Node) : Decidable (r.Selects g n) :=
  decidable_of_iff _ Rule.mem_namedSubjects

/-- **How many entries are due** for a resource in a role: one for each selection, child relation or
property relation that has no name for it. -/
def Rule.omissionsDue (r : Rule) (g : Graph) (resource : Node) : OmissionRole → ℕ
  | .root =>
    if ⟨resource, r.selector.predicate, r.selector.value⟩ ∈ g.toList ∧
      r.nameSource.nameIn g resource = "" then 1 else 0
  | .child parent predicate =>
    if r.Selects g parent ∧ ⟨parent, predicate, .node resource⟩ ∈ g.toList then
      r.children.countP fun relation =>
        relation.predicate = predicate ∧ relation.nameSource.nameIn g resource = ""
    else 0
  | .property predicate =>
    if r.Selects g resource then
      r.properties.countP fun relation =>
        relation.predicate = predicate ∧ relation.nameSource.nameIn g resource = ""
    else 0

/-! ## Entries in the order in which they are made -/

namespace Rule

variable {rule : Rule} {g : Graph} {parent child subject predicate : Node} {relation : Relation}
  {children : List Node} {relations : List Relation} {entry : Omission}

/-- The entries for one scope. -/
def scopeOmissions (rule : Rule) (parent : Node) (g : Graph) (relation : Relation) :
    List Omission :=
  (((g.objects parent relation.predicate).filterMap Term.node?).filter fun child =>
    relation.nameSource.nameIn g child = "").map fun child =>
      ⟨rule.id, child, .child parent relation.predicate⟩

/-- The entries for some properties of a subject. -/
def propertyOmissions (rule : Rule) (subject : Node) (g : Graph) (relations : List Relation) :
    List Omission :=
  (relations.filter fun relation => relation.nameSource.nameIn g subject = "").map fun relation =>
    ⟨rule.id, subject, .property relation.predicate⟩

/-- The entries for one selected subject. -/
def subjectOmissions (rule : Rule) (g : Graph) (subject : Node) : List Omission :=
  if rule.nameSource.nameIn g subject = "" then [⟨rule.id, subject, .root⟩]
  else rule.children.flatMap (rule.scopeOmissions subject g) ++
    rule.propertyOmissions subject g rule.properties

theorem omissions_childActs {names : TakenNames} :
    (rule.childActs parent relation g children names).filterMap Act.omission =
      (children.filter fun child => relation.nameSource.nameIn g child = "").map fun child =>
        ⟨rule.id, child, .child parent relation.predicate⟩ := by
  induction children generalizing names with
  | nil => rfl
  | cons child children ih =>
      rw [childActs]
      by_cases hname : relation.nameSource.nameIn g child = ""
      · rw [if_pos (String.isEmpty_iff.2 hname), List.filter_cons_of_pos (by simpa using hname),
          List.filterMap_cons, ih]
        rfl
      · rw [if_neg (by rwa [String.isEmpty_iff]), List.filter_cons_of_neg (by simpa using hname)]
        exact ih

end Rule

namespace Annotator

variable {a : Annotator} {rule : Rule} {g : Graph} {subject : Node}

theorem omissions_propertyActs {relations : List Relation} {described : List Node} :
    (a.propertyActs rule subject g relations described).filterMap Act.omission =
      rule.propertyOmissions subject g relations := by
  induction relations generalizing described with
  | nil => rfl
  | cons relation relations ih =>
      rw [propertyActs, Rule.propertyOmissions]
      by_cases hname : relation.nameSource.nameIn g subject = ""
      · rw [if_pos (String.isEmpty_iff.2 hname), List.filter_cons_of_pos (by simpa using hname),
          List.filterMap_cons, ih]
        rfl
      · rw [if_neg (by rwa [String.isEmpty_iff]), List.filter_cons_of_neg (by simpa using hname)]
        dsimp only
        -- a property that has a name is described and linked, and neither makes an entry
        have hdescribed : ∀ schema name predicate,
            (if schema ∈ described then [] else [Act.describe schema name predicate]).filterMap
              Act.omission = [] := by
          intro schema name predicate
          split <;> rfl
        rw [List.filterMap_append, hdescribed]
        exact ih

/-- The plan of a rule leaves out what has no name. -/
theorem omissions_acts :
    (a.acts rule g).filterMap Act.omission =
      (rule.selector.subjects g).flatMap (rule.subjectOmissions g) := by
  rw [acts, List.filterMap_flatMap]
  refine List.flatMap_congr fun subject _ => ?_
  rw [subjectActs, Rule.subjectOmissions]
  by_cases hname : rule.nameSource.nameIn g subject = ""
  · rw [if_pos (String.isEmpty_iff.2 hname), if_pos hname]
    rfl
  · rw [if_neg (by rwa [String.isEmpty_iff]), if_neg hname, List.filterMap_cons,
      List.filterMap_append, omissions_propertyActs, List.filterMap_flatMap]
    refine congrArg (· ++ _) (List.flatMap_congr fun relation _ => ?_)
    exact Rule.omissions_childActs

/-- The plan of a rule enrols the subjects that have a name. -/
theorem enrolled_acts : (a.acts rule g).filterMap Act.enrolled = rule.namedSubjects g := by
  have hread : Act.enrolled = fun act => act.enrolment.map Prod.fst := by
    funext act
    cases act <;> rfl
  rw [hread, ← List.map_filterMap, enrolments_acts, List.map_map]
  exact List.map_id _

end Annotator

/-! ## Counting them -/

/-- Where one member of a list alone can bring in an element, it decides how often the element
comes. -/
theorem count_flatMap_of_owner {α β : Type} [DecidableEq α] [DecidableEq β] {f : α → List β}
    {l : List α} {x : β} {owner : α} (howner : ∀ a ∈ l, x ∈ f a → a = owner) (hnodup : l.Nodup) :
    (l.flatMap f).count x = if owner ∈ l then (f owner).count x else 0 := by
  induction l with
  | nil => rfl
  | cons a l ih =>
      obtain ⟨ha, hl⟩ := List.nodup_cons.1 hnodup
      obtain ⟨hfirst, hrest⟩ := List.forall_mem_cons.1 howner
      rw [List.flatMap_cons, List.count_append, ih hrest hl]
      by_cases heq : owner = a
      · subst heq
        rw [if_neg ha, if_pos (List.mem_cons_self ..), Nat.add_zero]
      · have hnone : (f a).count x = 0 := List.count_eq_zero.2 fun hx => heq (hfirst hx).symm
        rw [hnone, Nat.zero_add]
        refine if_congr ?_ rfl rfl
        rw [List.mem_cons, or_iff_right heq]

namespace Rule

variable {rule : Rule} {g : Graph} {parent child subject predicate : Node} {relation : Relation}
  {relations : List Relation} {entry : Omission}

theorem mem_scopeOmissions :
    entry ∈ rule.scopeOmissions parent g relation ↔
      ∃ child, ⟨parent, relation.predicate, .node child⟩ ∈ g.toList ∧
        relation.nameSource.nameIn g child = "" ∧
        entry = ⟨rule.id, child, .child parent relation.predicate⟩ := by
  simp only [scopeOmissions, List.mem_map, List.mem_filter, Graph.mem_objectNodes,
    decide_eq_true_iff, and_assoc, eq_comm (a := entry)]

theorem nodup_scopeOmissions : (rule.scopeOmissions parent g relation).Nodup := by
  refine ((Graph.nodup_objectNodes g parent relation.predicate).filter _).map ?_
  intro child child' heq
  exact (Omission.mk.inj heq).2.1

/-- A child is left out once by each child relation that leads to it and has no name for it. -/
theorem count_scopeOmissions :
    (relations.flatMap (rule.scopeOmissions parent g)).count
        ⟨rule.id, child, .child parent predicate⟩ =
      if ⟨parent, predicate, .node child⟩ ∈ g.toList then
        relations.countP fun relation =>
          relation.predicate = predicate ∧ relation.nameSource.nameIn g child = ""
      else 0 := by
  induction relations with
  | nil => split <;> rfl
  | cons relation relations ih =>
      have hfirst : (rule.scopeOmissions parent g relation).count
            ⟨rule.id, child, .child parent predicate⟩ =
          if relation.predicate = predicate ∧ relation.nameSource.nameIn g child = "" ∧
            ⟨parent, predicate, .node child⟩ ∈ g.toList then 1 else 0 := by
        rw [nodup_scopeOmissions.count]
        refine if_congr ?_ rfl rfl
        rw [mem_scopeOmissions]
        constructor
        · rintro ⟨other, hfact, hname, heq⟩
          cases heq
          exact ⟨rfl, hname, hfact⟩
        · rintro ⟨rfl, hname, hfact⟩
          exact ⟨child, hfact, hname, rfl⟩
      rw [List.flatMap_cons, List.count_append, ih, hfirst, List.countP_cons]
      by_cases hfact : (⟨parent, predicate, .node child⟩ : Fact) ∈ g.toList
      · simp only [hfact, if_true, and_true, decide_eq_true_iff]
        exact Nat.add_comm ..
      · simp only [hfact, if_false, and_false]

/-- A subject is left out once by each property relation that has no name for it. -/
theorem count_propertyOmissions :
    (rule.propertyOmissions subject g relations).count ⟨rule.id, subject, .property predicate⟩ =
      relations.countP fun relation =>
        relation.predicate = predicate ∧ relation.nameSource.nameIn g subject = "" := by
  rw [propertyOmissions, List.count, List.countP_map, List.countP_filter]
  refine List.countP_congr fun relation _ => ?_
  simp

theorem role_of_mem_scopeOmissions
    (hentry : entry ∈ relations.flatMap (rule.scopeOmissions parent g)) :
    entry.rule = rule.id ∧ ∃ predicate, entry.role = .child parent predicate := by
  obtain ⟨relation, -, hentry⟩ := List.mem_flatMap.1 hentry
  obtain ⟨child, -, -, rfl⟩ := mem_scopeOmissions.1 hentry
  exact ⟨rfl, _, rfl⟩

theorem role_of_mem_propertyOmissions
    (hentry : entry ∈ rule.propertyOmissions subject g relations) :
    entry.rule = rule.id ∧ entry.resource = subject ∧
      ∃ predicate, entry.role = .property predicate := by
  obtain ⟨relation, -, rfl⟩ := List.mem_map.1 hentry
  exact ⟨rfl, rfl, _, rfl⟩

end Rule

/-- The subject in whose turn an entry is made. -/
def Omission.subject (entry : Omission) : Node :=
  match entry.role with
  | .child parent _ => parent
  | _ => entry.resource

namespace Rule

variable {rule : Rule} {g : Graph} {subject : Node} {entry : Omission}

theorem of_mem_subjectOmissions (hentry : entry ∈ rule.subjectOmissions g subject) :
    entry.rule = rule.id ∧ subject = entry.subject := by
  rw [subjectOmissions] at hentry
  split at hentry
  case isTrue =>
    rw [List.mem_singleton.1 hentry]
    exact ⟨rfl, rfl⟩
  case isFalse =>
    rw [Omission.subject]
    rcases List.mem_append.1 hentry with hentry | hentry
    · obtain ⟨hrule, predicate, hrole⟩ := role_of_mem_scopeOmissions hentry
      rw [hrole]
      exact ⟨hrule, rfl⟩
    · obtain ⟨hrule, hresource, predicate, hrole⟩ := role_of_mem_propertyOmissions hentry
      rw [hrole]
      exact ⟨hrule, hresource.symm⟩

/-- No scope makes an entry in another role than that of a child below its parent. -/
theorem count_scopes_eq_zero {parent : Node}
    (hrole : ∀ predicate, entry.role ≠ .child parent predicate) :
    (rule.children.flatMap (rule.scopeOmissions parent g)).count entry = 0 := by
  refine List.count_eq_zero.2 fun hentry => ?_
  obtain ⟨-, predicate, heq⟩ := role_of_mem_scopeOmissions hentry
  exact hrole predicate heq

/-- No property makes an entry in another role than that of a property. -/
theorem count_properties_eq_zero (hrole : ∀ predicate, entry.role ≠ .property predicate) :
    (rule.propertyOmissions subject g rule.properties).count entry = 0 := by
  refine List.count_eq_zero.2 fun hentry => ?_
  obtain ⟨-, -, predicate, heq⟩ := role_of_mem_propertyOmissions hentry
  exact hrole predicate heq

theorem count_subjectOmissions_of_unnamed (hname : rule.nameSource.nameIn g subject = "") :
    (rule.subjectOmissions g subject).count entry =
      if entry = ⟨rule.id, subject, .root⟩ then 1 else 0 := by
  rw [subjectOmissions, if_pos hname, List.count_singleton]
  refine if_congr ?_ rfl rfl
  rw [beq_iff_eq, eq_comm]

theorem count_subjectOmissions_of_named (hname : rule.nameSource.nameIn g subject ≠ "") :
    (rule.subjectOmissions g subject).count entry =
      (rule.children.flatMap (rule.scopeOmissions subject g)).count entry +
        (rule.propertyOmissions subject g rule.properties).count entry := by
  rw [subjectOmissions, if_neg hname, List.count_append]

/-- **In the turn of its subject, an entry is made as often as it is due.** -/
theorem count_subjectOmissions (g : Graph) (hrule : entry.rule = rule.id)
    (hsubject : entry.subject ∈ rule.selector.subjects g) :
    (rule.subjectOmissions g entry.subject).count entry =
      rule.omissionsDue g entry.resource entry.role := by
  obtain ⟨id, resource, role⟩ := entry
  obtain rfl : id = rule.id := hrule
  cases role with
  | root =>
      have hfact := Graph.mem_subjects.1 hsubject
      show (rule.subjectOmissions g resource).count _ = ite _ 1 0
      by_cases hname : rule.nameSource.nameIn g resource = ""
      · rw [count_subjectOmissions_of_unnamed hname, if_pos rfl, if_pos ⟨hfact, hname⟩]
      · rw [count_subjectOmissions_of_named hname, if_neg fun h => hname h.2,
          count_scopes_eq_zero fun _ => OmissionRole.noConfusion,
          count_properties_eq_zero fun _ => OmissionRole.noConfusion]
  | child parent predicate =>
      show (rule.subjectOmissions g parent).count _ = ite _ (rule.children.countP _) 0
      by_cases hname : rule.nameSource.nameIn g parent = ""
      · rw [count_subjectOmissions_of_unnamed hname, if_neg fun heq => by cases heq]
        exact (if_neg fun h => h.1.named hname).symm
      · have hselects : rule.Selects g parent := selects_iff.2 ⟨hsubject, hname⟩
        rw [count_subjectOmissions_of_named hname, count_scopeOmissions,
          count_properties_eq_zero fun _ => OmissionRole.noConfusion, Nat.add_zero]
        refine if_congr ?_ rfl rfl
        rw [and_iff_right hselects]
  | property predicate =>
      show (rule.subjectOmissions g resource).count _ = ite _ (rule.properties.countP _) 0
      by_cases hname : rule.nameSource.nameIn g resource = ""
      · rw [count_subjectOmissions_of_unnamed hname, if_neg fun heq => by cases heq]
        exact (if_neg fun h => h.named hname).symm
      · have hselects : rule.Selects g resource := selects_iff.2 ⟨hsubject, hname⟩
        rw [count_subjectOmissions_of_named hname, if_pos hselects,
          count_scopes_eq_zero fun _ => OmissionRole.noConfusion, Nat.zero_add]
        exact count_propertyOmissions

/-- Nothing is due in the turn of a subject that is not selected. -/
theorem omissionsDue_eq_zero (h : entry.subject ∉ rule.selector.subjects g) :
    rule.omissionsDue g entry.resource entry.role = 0 := by
  obtain ⟨id, resource, role⟩ := entry
  cases role with
  | root => exact if_neg fun hdue => h (Graph.mem_subjects.2 hdue.1)
  | child parent predicate => exact if_neg fun hdue => h (selects_iff.1 hdue.1).1
  | property predicate => exact if_neg fun hdue => h (selects_iff.1 hdue).1

/-- A rule that lists no predicate twice has nothing due twice. -/
theorem omissionsDue_le_one (hcheck : rule.check = .ok ()) (resource : Node) (role : OmissionRole) :
    rule.omissionsDue g resource role ≤ 1 := by
  obtain ⟨-, hchildren, hproperties⟩ := check_eq_ok_iff.1 hcheck
  have hle : ∀ {relations : List Relation} (predicate : Node),
      (relations.map Relation.predicate).Nodup → (relations.countP fun relation =>
        relation.predicate = predicate ∧ relation.nameSource.nameIn g resource = "") ≤ 1 := by
    intro relations predicate hnodup
    calc
      _ ≤ relations.countP fun relation => relation.predicate = predicate :=
        List.countP_mono_left fun relation _ h => by simp_all
      _ = (relations.map Relation.predicate).count predicate := by
        rw [List.count, List.countP_map]
        exact List.countP_congr fun relation _ => by simp
      _ ≤ 1 := List.nodup_iff_count_le_one.1 hnodup predicate
  cases role <;> rw [omissionsDue] <;> split
  case root.isTrue => exact Nat.le_refl 1
  case child.isTrue => exact hle _ hchildren
  case property.isTrue => exact hle _ hproperties
  all_goals exact Nat.zero_le 1

end Rule

/-! ## What the report says -/

namespace Plant

def title : Node := .iri "urn:plant#title"

/-- Two lines, one of which has a title and two sensors. A title is what counts here: the name that
the spare sensor has from before does not. -/
def depot : Graph := .ofList
  [⟨line1, .iri rdfTypeIri, lineKind⟩, ⟨line2, .iri rdfTypeIri, lineKind⟩,
    ⟨line1, title, Literal.string "Line 1"⟩, ⟨line1, has, sensor⟩, ⟨line1, has, spare⟩,
    ⟨sensor, title, Literal.string "Sensor"⟩, engine.vocabulary.nameFact spare "Spare"]

/-- Lines and their sensors are named by their titles. -/
def titledLines : Rule :=
  { id := "lines", selector := ⟨.iri rdfTypeIri, lineKind⟩, nameSource := .fromValue title,
    children := [⟨has, .fromValue title⟩], properties := [⟨model, .fromValue model⟩] }

end Plant

namespace Annotator

variable {a : Annotator} {rule : Rule}

/-- **Each entry of a report is made as often as it is due.** -/
theorem count_omissions (hrule : rule.ReadsRaw a.vocabulary) (g : Graph) (entry : Omission) :
    (a.annotate rule g).1.omissions.count entry =
      if entry.rule = rule.id then rule.omissionsDue g entry.resource entry.role else 0 := by
  have howner : ∀ subject ∈ rule.selector.subjects g,
      entry ∈ rule.subjectOmissions g subject → subject = entry.subject :=
    fun subject _ hentry => (Rule.of_mem_subjectOmissions hentry).2
  rw [annotate_eq hrule rfl]
  show ((a.acts rule g).filterMap Act.omission).count entry = _
  rw [omissions_acts, count_flatMap_of_owner howner (Graph.nodup_subjects g _ _)]
  by_cases hid : entry.rule = rule.id
  · rw [if_pos hid]
    split
    case isTrue hsubject => exact Rule.count_subjectOmissions g hid hsubject
    case isFalse hsubject => exact (Rule.omissionsDue_eq_zero hsubject).symm
  · have hnone : (rule.subjectOmissions g entry.subject).count entry = 0 :=
      List.count_eq_zero.2 fun hentry => hid (Rule.of_mem_subjectOmissions hentry).1
    rw [if_neg hid, hnone, ite_self]

/-- **A pass reports everything that it leaves out, and nothing else.** The rule reads raw facts.
The processed subjects are those with a name, in the order of the facts that select them and each
of them once. There is one entry for each selected subject without a name, one for each processed
subject, child relation and child that it leads to without a name for it, and one for each processed
subject and property relation without a name for it. So if the rule lists no predicate twice, there
are no two entries alike. -/
theorem reports_every_omission_once (hrule : rule.ReadsRaw a.vocabulary) (g : Graph) :
    (a.annotate rule g).1.processed =
      ((g.toList.filter fun f => f.predicate = rule.selector.predicate ∧
        f.object = rule.selector.value).map Fact.subject).filter
          (fun n => rule.nameSource.nameIn g n ≠ "") ∧
    (a.annotate rule g).1.processed.Nodup ∧
    (∀ entry, (a.annotate rule g).1.omissions.count entry =
      if entry.rule = rule.id then rule.omissionsDue g entry.resource entry.role else 0) ∧
    (rule.check = .ok () → (a.annotate rule g).1.omissions.Nodup) := by
  have hprocessed : (a.annotate rule g).1.processed = rule.namedSubjects g := by
    rw [annotate_eq hrule rfl]
    exact enrolled_acts
  have hsubjects : rule.selector.subjects g = (g.toList.filter fun f =>
      f.predicate = rule.selector.predicate ∧ f.object = rule.selector.value).map
        Fact.subject := by
    rw [Selector.subjects, Graph.subjects, Graph.filter_eq]
    refine congrArg _ (List.filter_congr fun f _ => ?_)
    rw [Bool.eq_iff_iff, Pattern.fits_having, decide_eq_true_iff]
  refine ⟨?_, ?_, count_omissions hrule g, fun hcheck => ?_⟩
  · rw [hprocessed, Rule.namedSubjects, hsubjects]
  · rw [hprocessed]
    exact (Graph.nodup_subjects g _ _).filter _
  · refine List.nodup_iff_count_le_one.2 fun entry => ?_
    rw [count_omissions hrule]
    split
    · exact Rule.omissionsDue_le_one hcheck _ _
    · exact Nat.zero_le 1

/-- In the depot, the first line is processed. The spare sensor is left out as its child and the
model as its property, and the second line is left out as a root. The sensor has a title, and there
is no entry for it. -/
theorem depot_reports_every_omission_once :
    let v := Plant.engine.vocabulary
    let report := (Plant.engine.annotator.annotate Plant.titledLines Plant.depot).1
    let entries : List Omission := [⟨"lines", Plant.spare, .child Plant.line1 Plant.has⟩,
      ⟨"lines", Plant.line1, .property Plant.model⟩, ⟨"lines", Plant.line2, .root⟩]
    Plant.titledLines.ReadsRaw v ∧ Plant.titledLines.check = .ok () ∧
    report.processed = [Plant.line1] ∧ report.processed.Nodup ∧ report.omissions.Nodup ∧
    (∀ entry ∈ entries, report.omissions.count entry = 1) ∧
    report.omissions.count ⟨"lines", Plant.sensor, .child Plant.line1 Plant.has⟩ = 0 := by
  intro v report entries
  have hrule : Plant.titledLines.ReadsRaw v := by decide +kernel
  have hcheck : Plant.titledLines.check = .ok () := by decide +kernel
  obtain ⟨hprocessed, honce, hcount, homissions⟩ :=
    reports_every_omission_once (a := Plant.engine.annotator) hrule Plant.depot
  refine ⟨hrule, hcheck, ?_, honce, homissions hcheck, fun entry hentry => ?_, ?_⟩
  · rw [hprocessed]
    decide +kernel
  · have hdue : ∀ entry ∈ entries, (if entry.rule = Plant.titledLines.id then
        Plant.titledLines.omissionsDue Plant.depot entry.resource entry.role else 0) = 1 := by
      decide +kernel
    exact (hcount entry).trans (hdue entry hentry)
  · rw [hcount]
    decide +kernel

end Annotator

end FactHierarchy
