import FactHierarchy.Proofs.Reversion.Plan
import FactHierarchy.Proofs.Run.Complete

/-!
# What a reversion asserts

A reversion goes down from the roots whose paths fit the base path of the rule. In a complete
hierarchy these are all roots, and no way down goes on for ever, so the descent succeeds and comes
to all objects (`Graph.Complete.entered_iff`). In a complete forest the facts that it adds are
known exactly (`Graph.Complete.exists_revert`): each object is selected again and named by its
name, and each parent is linked to its children (`Graph.Asserts`).

Only annotation facts are read. So the reversion may start from the annotation facts alone
(`Graph.annotationPart`), which hold a complete hierarchy when the graph does.
-/

set_option autoImplicit false

namespace FactHierarchy

namespace Graph

variable {v : Vocabulary} {base : String} {rule : Rule} {g g' : Graph} {n c p : Node}

/-! ## The parts of a graph -/

/-- The graph of the facts that are no raw facts. -/
def annotationPart (g : Graph) (v : Vocabulary) : Graph := .ofList (g.toList.filter (!v.isRaw ·))

/-- The graph of the raw facts. -/
def rawPart (g : Graph) (v : Vocabulary) : Graph := .ofList (g.rawFacts v)

theorem toList_annotationPart (g : Graph) (v : Vocabulary) :
    (g.annotationPart v).toList = g.toList.filter (!v.isRaw ·) :=
  toList_ofList (g.nodup_toList.filter _)

theorem toList_rawPart (g : Graph) (v : Vocabulary) : (g.rawPart v).toList = g.rawFacts v :=
  toList_ofList (g.nodup_toList.filter _)

/-- The objects of an annotation predicate are the same without the raw facts. -/
theorem objects_annotationPart {q : Node} (hq : q ∈ v.predicates) (n : Node) :
    (g.annotationPart v).objects n q = g.objects n q := by
  refine (agree_ofList_filter (!v.isRaw ·) g).objects_eq fun t => ?_
  rw [Vocabulary.isRaw_of_mem_predicates hq, Bool.not_false]

theorem mem_marker_annotationPart :
    v.markerFact n ∈ (g.annotationPart v).toList ↔ v.markerFact n ∈ g.toList := by
  refine (agree_ofList_filter (!v.isRaw ·) g).mem_iff ?_
  rw [Vocabulary.isRaw_markerFact, Bool.not_false]

/-! ## Graphs with the same hierarchy -/

/-- The graphs have the same objects, with the same names, paths and parents. -/
structure SameHierarchy (v : Vocabulary) (g g' : Graph) : Prop where
  marked : ∀ n, v.markerFact n ∈ g'.toList ↔ v.markerFact n ∈ g.toList
  parents : ∀ n t, ⟨n, v.parentRef, t⟩ ∈ g'.toList ↔ ⟨n, v.parentRef, t⟩ ∈ g.toList
  names : ∀ n, g'.objects n v.objectName = g.objects n v.objectName
  paths : ∀ n, g'.objects n v.objectPath = g.objects n v.objectPath

theorem sameHierarchy_annotationPart (g : Graph) (v : Vocabulary) :
    SameHierarchy v g (g.annotationPart v) where
  marked n := mem_marker_annotationPart
  parents n t := by
    rw [← mem_objects, ← mem_objects, objects_annotationPart (by simp [Vocabulary.predicates])]
  names := objects_annotationPart (by simp [Vocabulary.predicates])
  paths := objects_annotationPart (by simp [Vocabulary.predicates])

namespace SameHierarchy

variable (h : SameHierarchy v g g')
include h

/-- **The graphs have the same marker, name, parent and path facts.** -/
theorem mem_iff {f : Fact} (hf : v.isMarker f = true ∨
    f.predicate ∈ [v.objectName, v.parentRef, v.objectPath]) : f ∈ g'.toList ↔ f ∈ g.toList := by
  obtain ⟨n, q, t⟩ := f
  simp only [Vocabulary.isMarker, Bool.and_eq_true, beq_iff_eq, List.mem_cons, List.not_mem_nil,
    or_false] at hf
  rcases hf with ⟨rfl, rfl⟩ | rfl | rfl | rfl
  · exact h.marked n
  · rw [← mem_objects, ← mem_objects, h.names]
  · exact h.parents n t
  · rw [← mem_objects, ← mem_objects, h.paths]

theorem isChild_iff : g'.IsChild v c p ↔ g.IsChild v c p := h.parents c _

theorem hasParent_eq : g'.hasParent v n = g.hasParent v n := by
  rw [Bool.eq_iff_iff, hasParent_iff, hasParent_iff]
  simp only [h.parents]

theorem nameOf_eq (n : Node) : g'.nameOf v n = g.nameOf v n := valueText_congr (h.names n)

theorem mem_hierarchyObjects_iff : n ∈ g'.hierarchyObjects v ↔ n ∈ g.hierarchyObjects v := by
  rw [mem_hierarchyObjects, mem_hierarchyObjects, h.marked]

/-- A complete hierarchy is complete in every graph that holds it. -/
theorem complete (hg : g.Complete v base) : g'.Complete v base := by
  have hchild : g'.IsChild v = g.IsChild v :=
    funext fun c => funext fun p => propext h.isChild_iff
  constructor
  case named =>
    intro n hn
    rw [h.names]
    exact hg.named n ((h.marked n).1 hn)
  case unnamed =>
    intro n hn
    rw [h.names]
    exact hg.unnamed n fun hn' => hn ((h.marked n).2 hn')
  case parents =>
    intro c t ht
    simp only [h.marked]
    exact hg.parents c t ((h.parents c t).1 ht)
  case root =>
    intro n hn hroot
    rw [h.hasParent_eq] at hroot
    rw [h.paths, h.nameOf_eq]
    exact hg.root n ((h.marked n).1 hn) hroot
  case below =>
    intro n hn hparent
    rw [h.hasParent_eq] at hparent
    rw [hchild, h.paths, h.nameOf_eq]
    simp only [h.paths]
    exact hg.below n ((h.marked n).1 hn) hparent
  case unplaced =>
    intro n hn
    rw [h.paths]
    exact hg.unplaced n fun hn' => hn ((h.marked n).2 hn')
  case acc =>
    rw [hchild]
    exact hg.acc
  case reached =>
    intro n hn
    refine (hg.reached n ((h.marked n).1 hn)).mono (fun r hr _ => ⟨?_, rfl⟩) fun c m hc => ⟨?_, rfl⟩
    · obtain ⟨hcandidate, hobject, hroot⟩ := Graph.mem_roots.1 hr
      rw [← h.hasParent_eq] at hroot
      exact Graph.mem_roots.2
        ⟨h.mem_hierarchyObjects_iff.2 hcandidate, (h.marked r).2 hobject, hroot⟩
    · exact mem_nodesBelow.2 (h.isChild_iff.2 (mem_nodesBelow.1 hc.1))

theorem isForest (hg : g.IsForest v) : g'.IsForest v := by
  have hmem : ∀ n t, t ∈ g'.objects n v.parentRef ↔ t ∈ g.objects n v.parentRef := by
    intro n t
    rw [mem_objects, mem_objects, h.parents]
  constructor
  case parents =>
    intro n hn
    have hperm : (g'.objects n v.parentRef).Perm (g.objects n v.parentRef) :=
      (List.perm_ext_iff_of_nodup (nodup_objects ..) (nodup_objects ..)).2 (hmem n)
    rw [hperm.length_eq]
    exact hg.parents n (h.mem_hierarchyObjects_iff.1 hn)
  case siblings =>
    intro m hm n hn t htm htn
    rw [h.nameOf_eq, h.nameOf_eq]
    exact hg.siblings m (h.mem_hierarchyObjects_iff.1 hm) n (h.mem_hierarchyObjects_iff.1 hn) t
      ((hmem m t).1 htm) ((hmem n t).1 htn)

end SameHierarchy

/-! ## The descent of a reversion -/

namespace Complete

variable (h : g.Complete v base)
include h

/-- All roots of a complete hierarchy are below its base path. -/
theorem rootsBelow_eq : g.rootsBelow v base = g.roots v (g.hierarchyObjects v) := by
  rw [rootsBelow, List.filter_eq_self]
  intro r hr
  obtain ⟨-, hobject, hroot⟩ := Graph.mem_roots.1 hr
  have hpath : g.valueText r v.objectPath = appendSegment base (g.nameOf v r) :=
    valueText_of_objects (h.root r hobject hroot)
  rw [hpath, beq_iff_eq]

variable {visits : List Visit}
  (hexplored : (g.hierarchy v).Explored (fun _ => false) (g.rootsBelow v base) visits)
include hexplored

/-- **The descent of a reversion enters all objects** of a complete hierarchy. -/
theorem entered_iff : Entered visits n ↔ v.markerFact n ∈ g.toList := by
  rw [hexplored.entered_iff, h.rootsBelow_eq]
  exact ⟨marked_of_reached fun c p hc => (h.parents c _ hc).1, h.reached n⟩

/-- In a forest, the node above a visited one is its parent, and every child is visited from its
parent. -/
theorem exists_visit_iff (hforest : g.IsForest v) :
    (∃ visit ∈ visits, visit.node = c ∧ visit.above.head? = some p) ↔ g.IsChild v c p := by
  constructor
  · rintro ⟨⟨m, above, entered⟩, hvisit, rfl, habove⟩
    have horigin := hexplored.origin _ hvisit
    cases above with
    | nil => cases habove
    | cons q above =>
        obtain rfl : q = p := Option.some.inj habove
        exact mem_nodesBelow.1 horigin.2
  · intro hc
    obtain ⟨hcobject, -⟩ := h.parents c _ hc
    obtain ⟨above, hvisit⟩ := (h.entered_iff hexplored).2 hcobject
    have horigin := hexplored.origin _ hvisit
    cases above with
    | nil =>
        -- a child is no root
        have hroot : c ∈ g.rootsBelow v base := horigin
        rw [h.rootsBelow_eq, h.mem_roots] at hroot
        exact absurd hc (hroot.2 p)
    | cons q above =>
        have hq : g.IsChild v c q := mem_nodesBelow.1 horigin.2
        obtain rfl := h.parent_unique hforest hq hc
        exact ⟨_, hvisit, rfl, rfl⟩

end Complete

/-! ## The facts of a reversion -/

/-- **The raw facts that a reversion asserts** of a hierarchy, for a rule that takes names from the
predicate `p` and children from the predicate `c`. -/
@[mk_iff]
inductive Asserts (v : Vocabulary) (rule : Rule) (p c : Node) (g : Graph) : Fact → Prop
  | selected {n : Node} (hn : v.markerFact n ∈ g.toList) :
    Asserts v rule p c g ⟨n, rule.selector.predicate, rule.selector.value⟩
  | named {n : Node} (hn : v.markerFact n ∈ g.toList) :
    Asserts v rule p c g ⟨n, p, .literal (.string (g.nameOf v n))⟩
  | linked {n parent : Node} (hn : g.IsChild v n parent) : Asserts v rule p c g ⟨parent, c, .node n⟩

section Revert

variable (h : g.Complete v rule.basePath) (hname : rule.nameSource = .fromValue p)
include h hname

/-- The facts about an object select it and name it. -/
theorem Complete.mem_objectFacts (hn : v.markerFact n ∈ g.toList) {f : Fact} :
    f ∈ g.objectFacts v rule n ↔ f = ⟨n, rule.selector.predicate, rule.selector.value⟩ ∨
      f = ⟨n, p, .literal (.string (g.nameOf v n))⟩ := by
  rw [objectFacts, hname, object?, h.objects_objectName hn]
  simp

variable (hlink : rule.linkPredicate = some c) (hforest : g.IsForest v)
include hlink hforest

/-- **The reversion of a complete forest succeeds**, and it adds what it asserts. -/
theorem Complete.exists_revert :
    ∃ report g', g.revert v rule = .ok (report, g') ∧
      ∀ f, f ∈ g'.toList ↔ f ∈ g.toList ∨ g.Asserts v rule p c f := by
  obtain ⟨visits, hvisits⟩ :=
    exists_descend_of_acc h.acc (fun _ => false) (g.rootsBelow v rule.basePath)
  have hexplored := Hierarchy.explored_of_descend_eq_ok hvisits
  have hrevert : g.revert v rule = .ok (⟨rule.id, g.rootsBelow v rule.basePath,
      visits.countP Visit.entered, (g.insertAll (visits.flatMap (g.visitFacts v rule c))).1⟩,
      (g.insertAll (visits.flatMap (g.visitFacts v rule c))).2) := by
    rw [revert, reversionFacts, hlink]
    dsimp only
    rw [hvisits]
  refine ⟨_, _, hrevert, fun f => ?_⟩
  rw [insertAll_snd, mem_toList_extend, List.mem_flatMap]
  refine or_congr_right ?_
  simp only [visitFacts, List.mem_append, List.mem_map, Option.mem_toList]
  -- links come from all visits, the facts about an object from the one visit that enters it
  constructor
  · rintro ⟨visit, hvisit, ⟨parent, hparent, rfl⟩ | hfact⟩
    · exact .linked ((h.exists_visit_iff hexplored hforest).1 ⟨visit, hvisit, rfl, hparent⟩)
    · obtain ⟨n, above, entered⟩ := visit
      cases entered with
      | false => cases hfact
      | true =>
          have hn := (h.entered_iff hexplored).1 ⟨above, hvisit⟩
          rcases (h.mem_objectFacts hname hn).1 hfact with rfl | rfl
          · exact .selected hn
          · exact .named hn
  · intro hf
    cases hf with
    | @selected n hn =>
        obtain ⟨above, hvisit⟩ := (h.entered_iff hexplored).2 hn
        exact ⟨_, hvisit, .inr ((h.mem_objectFacts hname hn).2 (.inl rfl))⟩
    | @named n hn =>
        obtain ⟨above, hvisit⟩ := (h.entered_iff hexplored).2 hn
        exact ⟨_, hvisit, .inr ((h.mem_objectFacts hname hn).2 (.inr rfl))⟩
    | @linked n parent hn =>
        obtain ⟨visit, hvisit, rfl, hparent⟩ := (h.exists_visit_iff hexplored hforest).2 hn
        exact ⟨visit, hvisit, .inl ⟨parent, hparent, rfl⟩⟩

end Revert

end Graph

end FactHierarchy
