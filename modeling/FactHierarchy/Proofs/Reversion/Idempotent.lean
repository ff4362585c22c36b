import FactHierarchy.Proofs.Reversion.Plan
import FactHierarchy.Proofs.Run.FromScratch

/-!
# Reversions are idempotent

Rules that assert raw facts read annotations and write none, so the annotations are the same after
a reversion. A second reversion by the same rules makes the same plans, finds everything asserted
and leaves the graph as it is (`Engine.revert_again`).

This holds of any graph in which the first reversion succeeds, whatever its annotations are and
however the rules overlap.
-/

set_option autoImplicit false

namespace FactHierarchy

/-! ## The plant without its raw facts -/

namespace Plant

def item : Node := .iri "urn:plant#Item"

def label : Node := .iri "urn:plant#label"

/-- The annotations of the plant, as they might be kept alone. -/
def annotations : Graph :=
  let v : Vocabulary := default
  .ofList
    [v.markerFact line1, v.nameFact line1 "line1", v.markerFact sensor, v.parentFact sensor line1,
      v.nameFact sensor "sensor", v.markerFact line2, v.nameFact line2 "line2",
      v.parentFact sensor line2, v.pathFact line1 "/plant/line1",
      v.pathFact sensor "/plant/line1/sensor", v.pathFact line2 "/plant/line2"]

/-- Lines and all below them are lines again. The lines are items too, under the labels that are
their names, as the base path differs in a slash only. -/
def inventoryRules : List Rule :=
  [{ id := "lines", selector := ⟨.iri rdfTypeIri, lineKind⟩, children := [⟨has, .localName⟩],
     basePath := "/plant" },
    { id := "items", selector := ⟨.iri rdfTypeIri, item⟩, nameSource := .fromValue label,
      basePath := "/plant/" }]

end Plant

namespace Engine

variable {e : Engine} {rules : List Rule} {g g' : Graph} {reports : List ReversionReport}

/-- **A reversion leaves the annotations alone, and to revert again changes nothing.** By rules that
assert raw facts, a second reversion succeeds, has the same roots and the same number of objects for
every rule, adds no fact and leaves the graph as it is. -/
theorem revert_again (hrules : ∀ rule ∈ rules, rule.AssertsRaw e.vocabulary)
    (hrevert : e.revert rules g = (.ok reports, g')) :
    g'.toList.filter (fun f => !e.vocabulary.isRaw f) =
      g.toList.filter (fun f => !e.vocabulary.isRaw f) ∧
    e.revert rules g' = (.ok (reports.map fun report => { report with added := 0 }), g') := by
  obtain ⟨hcheck, hall⟩ := revertAll_of_revert_eq_ok hrevert
  have hstart := Graph.Agree.refl (fun f => !e.vocabulary.isRaw f) g
  obtain ⟨hagree, -, hreverted⟩ := reverted_of_revertAll hrules hstart hall
  refine ⟨hagree, ?_⟩
  rw [revert_of_checkAll hcheck]
  exact revertAll_of_reverted hagree hreverted

/-- The annotations of the plant are reverted by two rules with the same roots. The first one adds
a kind for each of the three objects and a link for each of the two parents of the sensor, and the
second one adds a kind and a label for each line. After that there is nothing left to add. -/
theorem revert_again_plant : ∃ reports g',
    (∀ rule ∈ Plant.inventoryRules, rule.AssertsRaw Plant.engine.vocabulary) ∧
    Plant.engine.revert Plant.inventoryRules Plant.annotations = (.ok reports, g') ∧
    reports = [⟨"lines", [Plant.line1, Plant.line2], 3, 5⟩,
      ⟨"items", [Plant.line1, Plant.line2], 2, 4⟩] ∧
    g'.toList.filter (fun f => !Plant.engine.vocabulary.isRaw f) =
      Plant.annotations.toList.filter (fun f => !Plant.engine.vocabulary.isRaw f) ∧
    Plant.engine.revert Plant.inventoryRules g' =
      (.ok (reports.map fun report => { report with added := 0 }), g') := by
  have hrules : ∀ rule ∈ Plant.inventoryRules, rule.AssertsRaw Plant.engine.vocabulary := by
    decide +kernel
  have hend : ((Plant.engine.revert Plant.inventoryRules Plant.annotations).1.toOption.any
      fun reports => reports = [⟨"lines", [Plant.line1, Plant.line2], 3, 5⟩,
        ⟨"items", [Plant.line1, Plant.line2], 2, 4⟩]) = true := by decide +kernel
  obtain ⟨reports, hreports, hadded⟩ := exists_eq_ok_of_any hend
  have hrevert : Plant.engine.revert Plant.inventoryRules Plant.annotations =
      (.ok reports, (Plant.engine.revert Plant.inventoryRules Plant.annotations).2) :=
    Prod.ext hreports rfl
  obtain ⟨hannotations, hagain⟩ := revert_again hrules hrevert
  exact ⟨reports, _, hrules, hrevert, of_decide_eq_true hadded, hannotations, hagain⟩

end Engine

end FactHierarchy
