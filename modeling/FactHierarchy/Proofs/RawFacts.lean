import FactHierarchy.Engine
import FactHierarchy.Proofs.Graph.Agree

/-!
# Raw facts and rules that read them

A fact is *raw* when annotation never writes its like: it is no marker and its predicate is none
of the six annotation predicates (`Vocabulary.isRaw`). A graph without any other facts is
unannotated (`Graph.Unannotated`).

A rule *reads raw facts* when neither its selector nor its child relations nor its name sources
look at anything else (`Rule.ReadsRaw`). What such a rule reads depends on the raw facts alone:
see `Rule.ReadsRaw.subjects_eq`, `Graph.objects_eq_of_rawFacts_eq` and
`NameSource.ReadsRaw.nameIn_eq`.
-/

set_option autoImplicit false

namespace FactHierarchy

/-! ## The terms of a vocabulary -/

namespace Vocabulary

/-- The predicates of annotation facts. -/
def predicates (v : Vocabulary) : List Node :=
  [v.objectName, v.objectPath, v.parentRef, v.hasProperty, v.propertyName,
    v.propertySourcePredicate]

/-- **No two terms are the same**, and none of them is `rdf:type`. -/
def Distinct (v : Vocabulary) : Prop := (v.rdfType :: v.terms).Nodup

/-- An IRI that ends in a local name of four or more characters, the last four not being `type`,
is not the IRI of `rdf:type`. -/
theorem rdfTypeIri_ne_append {base name : String} (hlength : 4 ≤ name.toList.length)
    (hend : name.toList.reverse.take 4 ≠ ['e', 'p', 'y', 't']) : rdfTypeIri ≠ base ++ name := by
  intro h
  have htake : rdfTypeIri.toList.reverse.take 4 = name.toList.reverse.take 4 := by
    rw [h, String.toList_append, List.reverse_append,
      List.take_append_of_le_length (by rw [List.length_reverse]; exact hlength)]
  exact hend (htake.symm.trans (by decide))

theorem distinct_ofBase (base : String) : (ofBase base).Distinct := by
  have hrdf : ∀ name : String, 4 ≤ name.toList.length →
      name.toList.reverse.take 4 ≠ ['e', 'p', 'y', 't'] → ¬rdfTypeIri = base ++ name :=
    fun name => rdfTypeIri_ne_append
  have hinj : ∀ a b : String, base ++ a = base ++ b ↔ a = b :=
    fun a b => String.append_right_inj base
  simp only [Distinct, ofBase, terms, List.nodup_cons, List.mem_cons, Node.iri.injEq, hinj, not_or,
    List.not_mem_nil, not_false_eq_true, and_true]
  refine ⟨⟨?_, ?_, ?_, ?_, ?_, ?_, ?_⟩, by decide⟩ <;> exact hrdf _ (by decide) (by decide)

variable {v : Vocabulary}

/-- **Terms at different places differ**, where `rdf:type` has the first place. -/
theorem Distinct.ne_of_mem_eraseIdx (hv : v.Distinct) {i : Nat} {p q : Node}
    (hp : (v.rdfType :: v.terms)[i]? = some p) (hq : q ∈ (v.rdfType :: v.terms).eraseIdx i) :
    p ≠ q := by
  rintro rfl
  obtain ⟨j, hj, hq⟩ := List.mem_eraseIdx_iff_getElem?.1 hq
  have hlt : j < (v.rdfType :: v.terms).length := (List.getElem?_eq_some_iff.1 hq).1
  exact hj ((List.getElem?_inj hlt hv).1 (hq.trans hp.symm))

theorem Distinct.ne_objectName (hv : v.Distinct) {p : Node}
    (hp : p ∈ [v.rdfType, v.hierarchyObject, v.objectPath, v.parentRef, v.hasProperty,
      v.propertyName, v.propertySourcePredicate]) : p ≠ v.objectName :=
  (hv.ne_of_mem_eraseIdx (i := 2) rfl hp).symm

theorem Distinct.ne_objectPath (hv : v.Distinct) {p : Node}
    (hp : p ∈ [v.rdfType, v.hierarchyObject, v.objectName, v.parentRef, v.hasProperty,
      v.propertyName, v.propertySourcePredicate]) : p ≠ v.objectPath :=
  (hv.ne_of_mem_eraseIdx (i := 3) rfl hp).symm

/-! ## Raw facts -/

/-- The fact is no marker and its predicate is no annotation predicate. -/
def isRaw (v : Vocabulary) (f : Fact) : Bool :=
  decide (f.predicate ∉ v.predicates) && !v.isMarker f

theorem isRaw_iff {f : Fact} :
    v.isRaw f = true ↔
      f.predicate ∉ v.predicates ∧ ¬(f.predicate = v.rdfType ∧ f.object = v.hierarchyObject) := by
  rw [isRaw, isMarker, Bool.and_eq_true, decide_eq_true_iff, Bool.not_eq_true', ← Bool.not_eq_true,
    Bool.and_eq_true, beq_iff_eq, beq_iff_eq]

theorem isRaw_of_mem_predicates {f : Fact} (hf : f.predicate ∈ v.predicates) :
    v.isRaw f = false := by
  rw [← Bool.not_eq_true, isRaw_iff]
  exact fun h => h.1 hf

theorem isRaw_markerFact (n : Node) : v.isRaw (v.markerFact n) = false := by
  rw [← Bool.not_eq_true, isRaw_iff]
  exact fun h => h.2 ⟨rfl, rfl⟩

/-- All facts under the predicate are raw. -/
def IsRawPredicate (v : Vocabulary) (p : Node) : Prop := p ≠ v.rdfType ∧ p ∉ v.predicates

instance (v : Vocabulary) (p : Node) : Decidable (v.IsRawPredicate p) :=
  inferInstanceAs (Decidable (p ≠ v.rdfType ∧ p ∉ v.predicates))

theorem isRaw_of_isRawPredicate {f : Fact} (hf : v.IsRawPredicate f.predicate) :
    v.isRaw f = true :=
  isRaw_iff.2 ⟨hf.2, fun h => hf.1 h.1⟩

end Vocabulary

namespace Graph

/-- The raw facts of a graph, in their order. -/
def rawFacts (g : Graph) (v : Vocabulary) : List Fact := g.toList.filter v.isRaw

/-- All facts of the graph are raw. -/
def Unannotated (g : Graph) (v : Vocabulary) : Prop := ∀ f ∈ g.toList, v.isRaw f = true

instance (g : Graph) (v : Vocabulary) : Decidable (g.Unannotated v) :=
  inferInstanceAs (Decidable (∀ f ∈ g.toList, v.isRaw f = true))

/-- A graph without annotations has no fact under an annotation predicate. -/
theorem Unannotated.not_mem {g : Graph} {v : Vocabulary} (hg : g.Unannotated v) {n p : Node}
    (hp : p ∈ v.predicates) (t : Term) : ⟨n, p, t⟩ ∉ g.toList := by
  intro hf
  have hraw := hg _ hf
  rw [Vocabulary.isRaw_of_mem_predicates hp] at hraw
  cases hraw

/-- Where all matching facts are raw, the raw facts decide the answer to a query. -/
theorem filter_eq_of_rawFacts_eq {g g' : Graph} {v : Vocabulary} {p : Pattern}
    (hraw : g.rawFacts v = g'.rawFacts v) (hp : ∀ f, p.fits f = true → v.isRaw f = true) :
    g.filter p = g'.filter p :=
  Agree.filter_eq hraw (fun f _ => hp f) (fun f _ => hp f)

theorem objects_eq_of_rawFacts_eq {g g' : Graph} {v : Vocabulary} {s p : Node}
    (hraw : g.rawFacts v = g'.rawFacts v) (hp : v.IsRawPredicate p) :
    g.objects s p = g'.objects s p :=
  Agree.objects_eq hraw fun _ => Vocabulary.isRaw_of_isRawPredicate hp

end Graph

/-! ## Rules that read raw facts -/

/-- The names do not come from annotation facts or types. -/
def NameSource.ReadsRaw (v : Vocabulary) : NameSource → Prop
  | .fromValue predicate => v.IsRawPredicate predicate
  | _ => True

instance (v : Vocabulary) : DecidablePred (NameSource.ReadsRaw v)
  | .fixed _ => inferInstanceAs (Decidable True)
  | .fromValue predicate => inferInstanceAs (Decidable (v.IsRawPredicate predicate))
  | .localName => inferInstanceAs (Decidable True)

/-- The name sources of a rule: that of the subjects, those of the child relations and those of
the property relations. -/
def Rule.nameSources (r : Rule) : List NameSource :=
  r.nameSource :: (r.children ++ r.properties).map Relation.nameSource

/-- **The rule reads raw facts only**: no child predicate and no predicate of a name source is
`rdf:type` or an annotation predicate, and the selector picks its subjects by raw facts. -/
structure Rule.ReadsRaw (v : Vocabulary) (r : Rule) : Prop where
  selector : r.selector.predicate ∉ v.predicates ∧
    ¬(r.selector.predicate = v.rdfType ∧ r.selector.value = v.hierarchyObject)
  children : ∀ relation ∈ r.children, v.IsRawPredicate relation.predicate
  nameSources : ∀ source ∈ r.nameSources, source.ReadsRaw v

instance (v : Vocabulary) : DecidablePred (Rule.ReadsRaw v) := fun r =>
  decidable_of_iff
    ((r.selector.predicate ∉ v.predicates ∧
        ¬(r.selector.predicate = v.rdfType ∧ r.selector.value = v.hierarchyObject)) ∧
      (∀ relation ∈ r.children, v.IsRawPredicate relation.predicate) ∧
      ∀ source ∈ r.nameSources, source.ReadsRaw v)
    ⟨fun ⟨hs, hc, hn⟩ => ⟨hs, hc, hn⟩, fun h => ⟨h.selector, h.children, h.nameSources⟩⟩

section ReadsRaw

variable {v : Vocabulary} {g g' : Graph}

theorem NameSource.ReadsRaw.nameIn_eq {source : NameSource} (h : source.ReadsRaw v)
    (hraw : g.rawFacts v = g'.rawFacts v) (n : Node) : source.nameIn g n = source.nameIn g' n := by
  cases source with
  | fixed name => rfl
  | fromValue predicate => exact Graph.valueText_congr (Graph.objects_eq_of_rawFacts_eq hraw h)
  | localName => rfl

namespace Rule.ReadsRaw

variable {r : Rule} (h : r.ReadsRaw v)
include h

theorem nameSource : r.nameSource.ReadsRaw v := h.nameSources _ (List.mem_cons_self ..)

theorem children_nameSource {relation : Relation} (hr : relation ∈ r.children) :
    relation.nameSource.ReadsRaw v :=
  h.nameSources _ (List.mem_cons_of_mem _ (List.mem_map_of_mem (List.mem_append_left _ hr)))

theorem properties_nameSource {relation : Relation} (hr : relation ∈ r.properties) :
    relation.nameSource.ReadsRaw v :=
  h.nameSources _ (List.mem_cons_of_mem _ (List.mem_map_of_mem (List.mem_append_right _ hr)))

theorem subjects_eq (hraw : g.rawFacts v = g'.rawFacts v) :
    r.selector.subjects g = r.selector.subjects g' := by
  rw [Selector.subjects, Selector.subjects, Graph.subjects, Graph.subjects,
    Graph.filter_eq_of_rawFacts_eq hraw]
  intro f hf
  obtain ⟨hp, ho⟩ := Pattern.fits_having.1 hf
  rw [Vocabulary.isRaw_iff, hp, ho]
  exact h.selector

end Rule.ReadsRaw

end ReadsRaw

end FactHierarchy
