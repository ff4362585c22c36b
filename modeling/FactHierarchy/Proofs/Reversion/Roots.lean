import FactHierarchy.Proofs.Hierarchy.Reach
import FactHierarchy.Proofs.Reversion.Idempotent
import FactHierarchy.Proofs.Run.Complete
import Mathlib.Data.Set.Card

/-!
# The roots that a reversion finds

A reversion has no record of what a run did. It takes the roots whose path is their name below the
base path of the rule. After a run from scratch these are the roots whose path was written for a
rule with the same base path, where a slash may be missing at the end
(`Engine.mem_rootsBelow_iff`), for the path of a root determines the base path that far
(`appendSegment_inj`).

As a run from scratch leaves no loop, the reversions of its rules all succeed
(`Engine.revert_finds_stamped_roots`). They come to everything at or below their roots
(`Hierarchy.Explored.encard_reached`).
-/

set_option autoImplicit false

namespace FactHierarchy

/-! ## Base paths -/

/-- The base path with a slash at its end, which is added if it is missing. -/
def closeBase (base : String) : String := if base.endsWith '/' then base else base ++ "/"

/-- **The base paths are the same up to a missing slash at the end.** -/
def SameBase (base base' : String) : Prop := closeBase base = closeBase base'

instance (base base' : String) : Decidable (SameBase base base') :=
  inferInstanceAs (Decidable (closeBase base = closeBase base'))

theorem appendSegment_eq (base segment : String) :
    appendSegment base segment = closeBase base ++ segment := by
  unfold appendSegment closeBase
  split
  · rfl
  · rfl

/-- **A path and its last segment determine the base path**, up to a missing slash. -/
theorem appendSegment_inj {base base' segment : String} :
    appendSegment base segment = appendSegment base' segment ↔ SameBase base base' := by
  rw [appendSegment_eq, appendSegment_eq, String.append_left_inj, SameBase]

/-! ## What is at or below roots -/

namespace Hierarchy

variable {h : Hierarchy} {roots : List Node} {visits : List Visit} {n : Node}

/-- Where no node is closed, the nodes that are reached are those from which a way leads up to a
root. -/
theorem reached_iff_of_open :
    h.Reached (fun _ => false) roots n ↔
      ∃ r ∈ roots, Relation.ReflTransGen (fun c p => c ∈ h.below p) n r := by
  have hopen : h.OpenBelow (fun _ => false) = fun c p => c ∈ h.below p := by
    funext c p
    simp [OpenBelow]
  unfold Reached
  simp [hopen]

/-- **A descent enters as many nodes as are reached.** -/
theorem Explored.encard_reached {closed : Node → Bool} (hexplored : h.Explored closed roots visits) :
    {n | h.Reached closed roots n}.encard = visits.countP Visit.entered := by
  have hset : {n | h.Reached closed roots n} = ↑(enteredNodes visits).toFinset := by
    ext n
    show h.Reached closed roots n ↔ n ∈ ↑(enteredNodes visits).toFinset
    rw [← hexplored.entered_iff, List.mem_toFinset, mem_enteredNodes]
  calc {n | h.Reached closed roots n}.encard
      = (enteredNodes visits).toFinset.card := by rw [hset, Set.encard_coe_eq_coe_finsetCard]
    _ = (enteredNodes visits).length := by rw [List.toFinset_card_of_nodup hexplored.once]
    _ = visits.countP Visit.entered := by
        rw [enteredNodes, List.length_map, List.countP_eq_length_filter]

end Hierarchy

namespace Graph

variable {v : Vocabulary} {g : Graph} {rule : Rule} {roots : List Node} {facts : List Fact}
  {objects : Nat}

/-- The hierarchy objects at or below some roots. -/
def objectsFrom (g : Graph) (v : Vocabulary) (roots : List Node) : Set Node :=
  {n | v.markerFact n ∈ g.toList ∧ ∃ r ∈ roots, Relation.ReflTransGen (g.IsChild v) n r}

/-- The first occurrences are without duplicates. -/
theorem nodup_eraseDups (nodes : List Node) : nodes.eraseDups.Nodup := by
  match nodes with
  | [] => simp
  | n :: rest =>
      rw [List.eraseDups_cons, List.nodup_cons]
      refine ⟨?_, nodup_eraseDups _⟩
      simp [List.mem_eraseDups]
termination_by nodes.length
decreasing_by
  have hle := List.length_filter_le (fun m => !m == n) rest
  simp only [List.length_cons]
  omega

theorem nodup_roots (g : Graph) (v : Vocabulary) (candidates : List Node) :
    (g.roots v candidates).Nodup :=
  (nodup_eraseDups candidates).filter _

/-- **A reversion is about the roots and, if the rule has a link predicate, about all objects below
them.** -/
theorem objects_of_reversionFacts (hroots : ∀ r ∈ roots, v.markerFact r ∈ g.toList)
    (hchildren : ∀ c p, g.IsChild v c p → v.markerFact c ∈ g.toList)
    (h : g.reversionFacts v rule roots = .ok (facts, objects)) :
    (rule.linkPredicate ≠ none → (g.objectsFrom v roots).encard = objects) ∧
      (rule.linkPredicate = none → objects = roots.length) := by
  unfold reversionFacts at h
  split at h
  · next hlink =>
    obtain ⟨-, rfl⟩ := Prod.mk.inj (Except.ok.inj h)
    exact ⟨fun hne => absurd hlink hne, fun _ => rfl⟩
  · next predicate hlink =>
    split at h
    · cases h
    · next visits hvisits =>
      obtain ⟨-, rfl⟩ := Prod.mk.inj (Except.ok.inj h)
      refine ⟨fun _ => ?_, fun hnone => ?_⟩
      · have hexplored := Hierarchy.explored_of_descend_eq_ok hvisits
        have hbelow : (fun c p => c ∈ (g.hierarchy v).below p) = g.IsChild v :=
          funext fun c => funext fun p => propext mem_nodesBelow
        have hset : g.objectsFrom v roots =
            {n | (g.hierarchy v).Reached (fun _ => false) roots n} := by
          ext n
          show _ ∧ _ ↔ (g.hierarchy v).Reached (fun _ => false) roots n
          rw [Hierarchy.reached_iff_of_open, hbelow]
          refine and_iff_right_of_imp ?_
          rintro ⟨r, hr, hway⟩
          -- what is not a root itself has a parent
          rcases Relation.ReflTransGen.cases_head hway with rfl | ⟨p, hp, -⟩
          · exact hroots n hr
          · exact hchildren n p hp
        rw [hset, hexplored.encard_reached]
      · rw [hlink] at hnone
        cases hnone

end Graph

/-! ## Roots after a run -/

/-- **The rule that stamped a root**: the first one in the order of the rules that processed it. -/
def RunReport.stampingRule? (report : RunReport) (rules : List Rule) (n : Node) : Option Rule :=
  ((rules.zip report.annotations).find? fun x => n ∈ x.2.processed).map Prod.fst

namespace Engine

variable {e : Engine} {rules : List Rule} {g g' : Graph} {report : RunReport} {n : Node}

section Run

variable (hg : g.Unannotated e.vocabulary) (hrun : e.run rules g = .ok (report, g'))
include hg hrun

/-- **The roots below a base path are those that a rule with this base path stamped**, up to a
missing slash. -/
theorem mem_rootsBelow_iff (base : String) :
    n ∈ g'.rootsBelow e.vocabulary base ↔
      e.vocabulary.markerFact n ∈ g'.toList ∧ g'.hasParent e.vocabulary n = false ∧
        ∃ rule, report.stampingRule? rules n = some rule ∧ SameBase rule.basePath base := by
  have hplaced := placed_of_run_eq_ok hg hrun
  have hmarker : e.vocabulary.markerFact n ∈ g'.toList ↔
      e.vocabulary.markerFact n ∈ (e.annotator.annotateAll rules g).2.toList :=
    hplaced.same.mem_marker_iff e.distinct_vocabulary.isAside_objectPath
  -- the path of a root is its name below the base path of the rule that stamped it
  have hpath : e.vocabulary.markerFact n ∈ g'.toList → g'.hasParent e.vocabulary n = false →
      ∃ rule, report.stampingRule? rules n = some rule ∧
        g'.valueText n e.vocabulary.objectPath =
          appendSegment rule.basePath (g'.nameOf e.vocabulary n) := by
    intro hn hroot
    obtain ⟨path, hplace⟩ := hplaced.places n (hasPath_of_run_eq_ok hg hrun (hmarker.1 hn))
    obtain ⟨x, hx, rfl⟩ := hplace.root hroot
    refine ⟨x.1, ?_, Graph.valueText_of_objects hplace.objects_eq⟩
    rw [RunReport.stampingRule?, hx, Option.map_some]
  rw [Graph.rootsBelow, List.mem_filter, Graph.mem_roots, Graph.mem_hierarchyObjects, beq_iff_eq]
  constructor
  · rintro ⟨⟨-, hn, hroot⟩, heq⟩
    obtain ⟨rule, hstamped, hvalue⟩ := hpath hn hroot
    rw [hvalue, appendSegment_inj] at heq
    exact ⟨hn, hroot, rule, hstamped, heq⟩
  · rintro ⟨hn, hroot, rule, hstamped, hsame⟩
    obtain ⟨rule', hstamped', hvalue⟩ := hpath hn hroot
    obtain rfl : rule = rule' := Option.some.inj (hstamped.symm.trans hstamped')
    rw [hvalue, appendSegment_inj]
    exact ⟨⟨hn, hn, hroot⟩, hsame⟩

/-- All children are objects after a run from scratch. -/
theorem marked_of_isChild {p : Node} (hchild : g'.IsChild e.vocabulary n p) :
    e.vocabulary.markerFact n ∈ g'.toList := by
  have hp := e.distinct_vocabulary.isAside_objectPath
  have hplaced := placed_of_run_eq_ok hg hrun
  rw [hplaced.same.isChild_iff hp] at hchild
  exact (hplaced.same.mem_marker_iff hp).2 ((orderly_annotated hg rules).parents n _ hchild).1

/-- No way down goes on for ever after a run from scratch. -/
theorem acc_isChild_of_run_eq_ok (n : Node) : Acc (g'.IsChild e.vocabulary) n := by
  have hsame := (placed_of_run_eq_ok hg hrun).same
  rw [hsame.isChild_eq e.distinct_vocabulary.isAside_objectPath]
  exact acc_of_run_eq_ok hg hrun n

end Run

/-- **Run and reversion agree on which roots belong to which base path.** After a run from scratch,
the reversions of its rules succeed if they assert raw facts. Each of them finds exactly the
parentless objects that were stamped by a rule with the same base path, up to a missing slash. It is
about all objects at or below these roots if the rule has a link predicate, and about the roots alone
otherwise. -/
theorem revert_finds_stamped_roots (hg : g.Unannotated e.vocabulary)
    (hrules : ∀ rule ∈ rules, rule.AssertsRaw e.vocabulary)
    (hrun : e.run rules g = .ok (report, g')) :
    ∃ reports g'', e.revert rules g' = (.ok reports, g'') ∧
      List.Forall₂ (fun rule reverted =>
        reverted.rule = rule.id ∧ reverted.roots.Nodup ∧
        (∀ n, n ∈ reverted.roots ↔
          e.vocabulary.markerFact n ∈ g'.toList ∧ g'.hasParent e.vocabulary n = false ∧
            ∃ stamping, report.stampingRule? rules n = some stamping ∧
              SameBase stamping.basePath rule.basePath) ∧
        (rule.linkPredicate ≠ none →
          (g'.objectsFrom e.vocabulary reverted.roots).encard = reverted.objects) ∧
        (rule.linkPredicate = none → reverted.objects = reverted.roots.length)) rules reports := by
  obtain ⟨hcheck, -⟩ := exists_of_run_eq_ok hrun
  have hstart := Graph.Agree.refl (fun f => !e.vocabulary.isRaw f) g'
  have hacc := acc_isChild_of_run_eq_ok hg hrun
  obtain ⟨reports, g'', hreverts⟩ :=
    exists_revertAll hrules hstart fun rule roots => Graph.exists_reversionFacts_of_acc hacc rule roots
  obtain ⟨-, -, hreverted⟩ := reverted_of_revertAll hrules hstart hreverts
  rw [← revert_of_checkAll hcheck] at hreverts
  refine ⟨reports, g'', hreverts, hreverted.imp fun rule reverted h => ?_⟩
  obtain ⟨facts, hplan, -⟩ := h.facts
  have hroots : ∀ r ∈ reverted.roots, e.vocabulary.markerFact r ∈ g'.toList := by
    intro r hr
    rw [h.roots_eq, mem_rootsBelow_iff hg hrun] at hr
    exact hr.1
  have hobjects := Graph.objects_of_reversionFacts hroots
    (fun c p hc => marked_of_isChild hg hrun hc) hplan
  refine ⟨h.rule_eq, ?_, fun n => ?_, hobjects⟩
  · rw [h.roots_eq]
    exact (Graph.nodup_roots ..).filter _
  · rw [h.roots_eq]
    exact mem_rootsBelow_iff hg hrun rule.basePath

/-- The rule for items selects nothing in the plant, and so it stamps no root. Its reversion finds
the two lines all the same, as they were stamped below a base path that differs from its own in a
slash only. -/
theorem revert_finds_lines_of_plant : ∃ report g' reports g'',
    Plant.graph.Unannotated Plant.engine.vocabulary ∧
    (∀ rule ∈ Plant.inventoryRules, rule.AssertsRaw Plant.engine.vocabulary) ∧
    Plant.engine.run Plant.inventoryRules Plant.graph = .ok (report, g') ∧
    report.annotations.map AnnotationReport.processed = [[Plant.line1, Plant.line2], []] ∧
    Plant.engine.revert Plant.inventoryRules g' = (.ok reports, g'') ∧
    reports = [⟨"lines", [Plant.line1, Plant.line2], 3, 1⟩,
      ⟨"items", [Plant.line1, Plant.line2], 2, 4⟩] ∧
    (∀ base ∈ ["/plant", "/plant/"], ∀ n, n ∈ [Plant.line1, Plant.line2] ↔
      Plant.engine.vocabulary.markerFact n ∈ g'.toList ∧
        g'.hasParent Plant.engine.vocabulary n = false ∧
        ∃ stamping, report.stampingRule? Plant.inventoryRules n = some stamping ∧
          SameBase stamping.basePath base) ∧
    (g'.objectsFrom Plant.engine.vocabulary [Plant.line1, Plant.line2]).encard = 3 := by
  have hg : Plant.graph.Unannotated Plant.engine.vocabulary := by decide +kernel
  have hrules : ∀ rule ∈ Plant.inventoryRules, rule.AssertsRaw Plant.engine.vocabulary := by
    decide +kernel
  have hend : ((Plant.engine.run Plant.inventoryRules Plant.graph).toOption.any fun result =>
      result.1.annotations.map AnnotationReport.processed = [[Plant.line1, Plant.line2], []] ∧
        (Plant.engine.revert Plant.inventoryRules result.2).1.toOption =
          some [⟨"lines", [Plant.line1, Plant.line2], 3, 1⟩,
            ⟨"items", [Plant.line1, Plant.line2], 2, 4⟩]) = true := by decide +kernel
  obtain ⟨⟨report, g'⟩, hrun, hend⟩ := exists_eq_ok_of_any hend
  obtain ⟨hprocessed, hfound⟩ := of_decide_eq_true hend
  obtain ⟨reports, g'', hrevert, hreverted⟩ := revert_finds_stamped_roots hg hrules hrun
  rw [hrevert] at hfound
  obtain rfl := Option.some.inj hfound
  obtain ⟨⟨-, -, hlines, hcount, -⟩, hrest⟩ := List.forall₂_cons.1 hreverted
  obtain ⟨⟨-, -, hitems, -⟩, -⟩ := List.forall₂_cons.1 hrest
  refine ⟨report, g', _, g'', hg, hrules, hrun, hprocessed, hrevert, rfl, ?_, hcount (by decide)⟩
  rintro base hbase n
  rcases List.mem_pair.1 hbase with rfl | rfl
  · exact hlines n
  · exact hitems n

end Engine

end FactHierarchy
