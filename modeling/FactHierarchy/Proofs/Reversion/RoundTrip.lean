import FactHierarchy.Proofs.Reversion.Facts

/-!
# Reversion undoes annotation

Annotate a graph by a rule that takes the names of subjects and of children from one predicate and
children from another one (`Rule.Mirrors`). If a forest comes of it, the annotation facts alone
are enough to get it back: the rule turns the raw facts that its reversion asserts into the same
objects, names, parents and paths (`Engine.run_of_reverted`).

Two things have to be seen for this. The second run finds more roots than the first one, as every
object is selected now, but each of them has its own name as its value, so it does not matter
whether it is named as a root or as a child. And the names of siblings, which may have been told
apart in the first run, are claimed once each in the second one (`Rule.Mirrors.name_eq_of_adopt`).
-/

set_option autoImplicit false

namespace FactHierarchy

/-- **The rule takes all names from the predicate `p` and all children from the predicate `c`**, and
no fact that it reads or asserts stands for two things. -/
structure Rule.Mirrors (v : Vocabulary) (rule : Rule) (p c : Node) : Prop where
  nameSource : rule.nameSource = .fromValue p
  children : rule.children = [⟨c, .fromValue p⟩]
  distinct : [rule.selector.predicate, p, c].Nodup
  selector : rule.selector.predicate ∉ v.predicates ∧
    ¬(rule.selector.predicate = v.rdfType ∧ rule.selector.value = v.hierarchyObject)
  names_raw : v.IsRawPredicate p
  links_raw : v.IsRawPredicate c

/-! ## A small taxonomy

Two narrower concepts have the same label. One of them is selected, the other one is a child
only. -/

namespace Taxonomy

def animals : Node := .iri "urn:taxonomy#animals"

def cats : Node := .iri "urn:taxonomy#cats"

def wildcats : Node := .iri "urn:taxonomy#wildcats"

def concept : Node := .iri "urn:taxonomy#Concept"

def label : Node := .iri "urn:taxonomy#label"

def narrower : Node := .iri "urn:taxonomy#narrower"

def graph : Graph := .ofList
  [⟨animals, .iri rdfTypeIri, concept⟩, ⟨animals, label, Literal.string "Animals"⟩,
    ⟨cats, .iri rdfTypeIri, concept⟩, ⟨cats, label, Literal.string "Cats"⟩,
    ⟨wildcats, label, Literal.string "Cats"⟩,
    ⟨animals, narrower, cats⟩, ⟨animals, narrower, wildcats⟩]

def rule : Rule where
  id := "concepts"
  selector := ⟨.iri rdfTypeIri, concept⟩
  nameSource := .fromValue label
  children := [⟨narrower, .fromValue label⟩]
  basePath := "/taxonomy"

def engine : Engine := {}

theorem mirrors : rule.Mirrors engine.vocabulary label narrower where
  nameSource := rfl
  children := rfl
  distinct := by decide +kernel
  selector := by decide +kernel
  names_raw := by decide +kernel
  links_raw := by decide +kernel

end Taxonomy

/-! ## Rules that mirror -/

namespace Rule.Mirrors

variable {v : Vocabulary} {rule : Rule} {p c : Node} {g gr : Graph} {n parent : Node}
  {name : String}

section Rule

variable (h : rule.Mirrors v p c)
include h

theorem predicates_ne :
    rule.selector.predicate ≠ p ∧ rule.selector.predicate ≠ c ∧ p ≠ c := by
  have hdistinct := h.distinct
  simp only [List.nodup_cons, List.mem_cons, List.not_mem_nil, or_false, not_or] at hdistinct
  exact ⟨hdistinct.1.1, hdistinct.1.2, hdistinct.2.1⟩

theorem linkPredicate : rule.linkPredicate = some c := by
  rw [Rule.linkPredicate, h.children]

/-- Apart from its properties, such a rule reads raw facts. -/
theorem readsRaw : rule.withoutProperties.ReadsRaw v := by
  have hsource : NameSource.ReadsRaw v (.fromValue p) := h.names_raw
  refine ⟨h.selector, fun relation hr => ?_, fun source hs => ?_⟩
  · have hr : relation ∈ rule.children := hr
    rw [h.children] at hr
    obtain rfl := List.mem_singleton.1 hr
    exact h.links_raw
  · have hs : source ∈ rule.nameSource :: (rule.children ++ []).map Relation.nameSource := hs
    rw [h.nameSource, h.children] at hs
    obtain rfl : source = .fromValue p := by simpa using hs
    exact hsource

/-- What a reversion asserts is raw. -/
theorem isRaw_of_asserts {f : Fact} (hf : g.Asserts v rule p c f) : v.isRaw f = true := by
  cases hf with
  | selected hn => exact Vocabulary.isRaw_iff.2 h.selector
  | named hn => exact Vocabulary.isRaw_of_isRawPredicate h.names_raw
  | linked hn => exact Vocabulary.isRaw_of_isRawPredicate h.links_raw

end Rule

/-! ## The raw facts, read again -/

section Asserted

variable (h : rule.Mirrors v p c) (hgr : ∀ f, f ∈ gr.toList ↔ g.Asserts v rule p c f)
include h hgr

theorem unannotated : gr.Unannotated v := fun f hf => h.isRaw_of_asserts ((hgr f).1 hf)

/-- All objects are selected again, and nothing else. -/
theorem mem_subjects_iff : n ∈ rule.selector.subjects gr ↔ v.markerFact n ∈ g.toList := by
  obtain ⟨hname, hlink, -⟩ := h.predicates_ne
  rw [Selector.subjects, Graph.mem_subjects, hgr, Graph.asserts_iff]
  simp only [Fact.mk.injEq]
  constructor
  · rintro (⟨m, hm, rfl, -⟩ | ⟨m, -, -, heq, -⟩ | ⟨m, parent, -, -, heq, -⟩)
    · exact hm
    · exact absurd heq hname
    · exact absurd heq hlink
  · exact fun hn => .inl ⟨n, hn, rfl, trivial, trivial⟩

/-- Each object has its name as its one value. -/
theorem valueText_eq (hn : v.markerFact n ∈ g.toList) : gr.valueText n p = g.nameOf v n := by
  obtain ⟨hname, -, hlink⟩ := h.predicates_ne
  have hobjects : gr.objects n p = [.literal (.string (g.nameOf v n))] := by
    refine Graph.objects_eq_singleton fun t => ?_
    rw [hgr, Graph.asserts_iff]
    simp only [Fact.mk.injEq]
    constructor
    · rintro (⟨m, -, -, heq, -⟩ | ⟨m, -, rfl, -, rfl⟩ | ⟨m, parent, -, -, heq, -⟩)
      · exact absurd heq.symm hname
      · rfl
      · exact absurd heq hlink
    · rintro rfl
      exact .inr (.inl ⟨n, hn, rfl, trivial, rfl⟩)
  exact Graph.valueText_of_objects hobjects

/-- Each object is linked to its children again, and to nothing else. -/
theorem mem_children_iff :
    n ∈ (gr.objects parent c).filterMap Term.node? ↔ g.IsChild v n parent := by
  obtain ⟨-, hlink, hname⟩ := h.predicates_ne
  have hmem : .node n ∈ gr.objects parent c ↔ g.IsChild v n parent := by
    rw [Graph.mem_objects, hgr, Graph.asserts_iff]
    simp only [Fact.mk.injEq]
    constructor
    · rintro (⟨m, -, -, heq, -⟩ | ⟨m, -, -, heq, -⟩ | ⟨m, q, hm, rfl, -, heq⟩)
      · exact absurd heq.symm hlink
      · exact absurd heq.symm hname
      · rwa [Term.node.inj heq]
    · exact fun hn => .inr (.inr ⟨n, parent, hn, rfl, trivial, rfl⟩)
  rw [← hmem, List.mem_filterMap]
  constructor
  · rintro ⟨t, ht, hnode⟩
    cases t with
    | node m =>
        obtain rfl : m = n := Option.some.inj hnode
        exact ht
    | literal l => cases hnode
  · exact fun ht => ⟨_, ht, rfl⟩

end Asserted

/-! ## The plan of the second run -/

section Plan

variable {a : Annotator} {base : String} (h : rule.Mirrors a.vocabulary p c)
  (hgr : ∀ f, f ∈ gr.toList ↔ g.Asserts a.vocabulary rule p c f)
  (hcomplete : g.Complete a.vocabulary base)
include h hgr hcomplete

/-- All objects are enrolled, each under its name. -/
theorem enrol_mem_acts_iff : .enrol n name ∈ a.acts rule.withoutProperties gr ↔
    a.vocabulary.markerFact n ∈ g.toList ∧ name = g.nameOf a.vocabulary n := by
  rw [Annotator.mem_acts_withoutProperties (Act.marked_enrol_ne_nil n name),
    Annotator.enrol_mem_acts_iff, h.mem_subjects_iff hgr, h.nameSource, NameSource.nameIn]
  constructor
  · rintro ⟨hn, hname, -⟩
    exact ⟨hn, hname.trans (h.valueText_eq hgr hn)⟩
  · rintro ⟨hn, rfl⟩
    exact ⟨hn, (h.valueText_eq hgr hn).symm, hcomplete.nameOf_ne_empty hn⟩

/-- Children are adopted by their parents alone. -/
theorem exists_adopt_iff : (∃ name, .adopt parent n name ∈ a.acts rule.withoutProperties gr) ↔
    g.IsChild a.vocabulary n parent := by
  simp only [Annotator.mem_acts_withoutProperties (Act.marked_adopt_ne_nil parent n _),
    Annotator.adopt_mem_acts_iff, h.children, List.mem_singleton, exists_eq_left]
  constructor
  · rintro ⟨name, -, -, hscope⟩
    obtain ⟨entry, heq⟩ | ⟨child, hchild, given, heq, -⟩ := Rule.cases_of_mem_childActs hscope
    · cases heq
    · obtain ⟨-, rfl, -⟩ := Act.adopt.inj heq
      exact (h.mem_children_iff hgr).1 hchild
  · intro hn
    obtain ⟨hobject, q, heq, hparent⟩ := hcomplete.parents n _ hn
    obtain rfl : parent = q := Term.node.inj heq
    have hname : (⟨c, .fromValue p⟩ : Relation).nameSource.nameIn gr n ≠ "" := by
      show gr.valueText n p ≠ ""
      rw [h.valueText_eq hgr hobject]
      exact hcomplete.nameOf_ne_empty hobject
    obtain ⟨name, hadopt⟩ :
        ∃ name, .adopt parent n name ∈ rule.scopeActs parent gr ⟨c, .fromValue p⟩ :=
      Rule.exists_adopt_mem_childActs .empty ((h.mem_children_iff hgr).2 hn) hname
    refine ⟨name, (h.mem_subjects_iff hgr).2 hparent, ?_, hadopt⟩
    rw [h.nameSource, NameSource.nameIn, h.valueText_eq hgr hparent]
    exact hcomplete.nameOf_ne_empty hparent

/-- **Children are adopted under their names**, as no two siblings have the same one. -/
theorem name_eq_of_adopt (hforest : g.IsForest a.vocabulary)
    (hadopt : .adopt parent n name ∈ a.acts rule.withoutProperties gr) :
    name = g.nameOf a.vocabulary n := by
  have hn : g.IsChild a.vocabulary n parent :=
    (h.exists_adopt_iff hgr hcomplete).1 ⟨name, hadopt⟩
  obtain ⟨hobject, -⟩ := hcomplete.parents n _ hn
  simp only [Annotator.mem_acts_withoutProperties (Act.marked_adopt_ne_nil parent n _),
    Annotator.adopt_mem_acts_iff, h.children, List.mem_singleton, exists_eq_left] at hadopt
  obtain ⟨-, -, hscope⟩ := hadopt
  -- the values of the children in the scope are the names of siblings, so they all differ
  have hvalue : ∀ m ∈ (gr.objects parent c).filterMap Term.node?,
      gr.valueText m p = g.nameOf a.vocabulary m := by
    intro m hm
    obtain ⟨hmobject, -⟩ := hcomplete.parents m _ ((h.mem_children_iff hgr).1 hm)
    exact h.valueText_eq hgr hmobject
  have hdiffer : (((gr.objects parent c).filterMap Term.node?).map
      (NameSource.nameIn (.fromValue p) gr)).Nodup := by
    refine (Graph.nodup_objectNodes gr parent c).map_on fun m hm m' hm' heq => ?_
    have hnames : g.nameOf a.vocabulary m = g.nameOf a.vocabulary m' := by
      rw [← hvalue m hm, ← hvalue m' hm']
      exact heq
    exact hcomplete.sibling_unique hforest ((h.mem_children_iff hgr).1 hm)
      ((h.mem_children_iff hgr).1 hm') hnames
  -- every scope starts from an empty table
  have hfree : ∀ child ∈ (gr.objects parent c).filterMap Term.node?,
      TakenNames.empty.counts[NameSource.nameIn (.fromValue p) gr child]? = none :=
    fun child _ => rfl
  have hname := Rule.name_eq_of_mem_childActs hdiffer hfree hscope
  exact hname.trans (h.valueText_eq hgr hobject)

/-- **What the second run makes of the asserted facts**: the same objects, the same parents, and for
each object no name but its own. -/
theorem annotate_asserted (hv : a.vocabulary.Distinct) (hforest : g.IsForest a.vocabulary) :
    (∀ n, a.vocabulary.markerFact n ∈ (a.annotate rule gr).2.toList ↔
      a.vocabulary.markerFact n ∈ g.toList) ∧
    (∀ n q, (a.annotate rule gr).2.IsChild a.vocabulary n q ↔ g.IsChild a.vocabulary n q) ∧
    ∀ n t, t ∈ (a.annotate rule gr).2.objects n a.vocabulary.objectName →
      t = .literal (.string (g.nameOf a.vocabulary n)) := by
  have hfollows := Annotator.follows_annotate hv h.readsRaw (h.unannotated hgr)
  have hadopt : ∀ n q, (∃ name, .adopt q n name ∈ a.acts rule.withoutProperties gr) ↔
      g.IsChild a.vocabulary n q := fun _ _ => h.exists_adopt_iff hgr hcomplete
  refine ⟨fun n => ?_, fun n q => ?_, fun n t ht => ?_⟩
  · rw [hfollows.marked]
    constructor
    · rintro ⟨act, hact, hn⟩
      cases act with
      | enrol root name =>
          obtain rfl : n = root := List.mem_singleton.1 hn
          exact ((h.enrol_mem_acts_iff hgr hcomplete).1 hact).1
      | adopt parent child name =>
          obtain rfl : n = child := List.mem_singleton.1 hn
          exact (hcomplete.parents n _ ((hadopt n parent).1 ⟨name, hact⟩)).1
      | leaveOut _ | describe _ _ _ | link _ _ => cases hn
    · intro hn
      exact ⟨_, (h.enrol_mem_acts_iff hgr hcomplete).2 ⟨hn, rfl⟩, List.mem_singleton_self n⟩
  · rw [hfollows.parents, hadopt]
  · -- enrolled or adopted, a node is given its own name
    obtain ⟨act, hact, name, hgiven, rfl⟩ := hfollows.named n t ht
    cases act with
    | enrol root given =>
        obtain ⟨rfl, rfl⟩ := Prod.mk.inj (Option.some.inj hgiven)
        rw [((h.enrol_mem_acts_iff hgr hcomplete).1 hact).2]
    | adopt parent child given =>
        obtain ⟨rfl, rfl⟩ := Prod.mk.inj (Option.some.inj hgiven)
        rw [h.name_eq_of_adopt hgr hcomplete hforest hact]
    | leaveOut _ | describe _ _ _ | link _ _ => cases hgiven

end Plan

end Rule.Mirrors

namespace Engine

variable {e : Engine} {rule : Rule} {p c : Node} {g gr g₁ : Graph} {report : RunReport}

/-- **A run on the asserted facts of a complete forest succeeds and gives the forest back.** -/
theorem exists_run_of_asserted (h : rule.Mirrors e.vocabulary p c)
    (hgr : ∀ f, f ∈ gr.toList ↔ g.Asserts e.vocabulary rule p c f)
    (hcomplete : g.Complete e.vocabulary rule.basePath) (hforest : g.IsForest e.vocabulary)
    (hcheck : Rule.checkAll [rule] = .ok ()) :
    ∃ report g', e.run [rule] gr = .ok (report, g') ∧ g.SameHierarchy e.vocabulary g' := by
  have hv := e.distinct_vocabulary
  have hp := hv.isAside_objectPath
  obtain ⟨hmarked, hchild, hname⟩ :=
    Rule.Mirrors.annotate_asserted (a := e.annotator) h hgr hcomplete hv hforest
  change ∀ n, e.vocabulary.markerFact n ∈ (e.annotator.annotateAll [rule] gr).2.toList ↔ _
    at hmarked
  cases hrun : e.run [rule] gr with
  | error cause =>
      -- a loop in the second run would have been a loop in the first one
      obtain ⟨-, -, -, n, hloop⟩ := exists_loop_of_run_eq_error hcheck hrun
      have hloop' : Relation.TransGen (g.IsChild e.vocabulary) n n :=
        Relation.TransGen.mono (fun c q hc => (hchild c q).1 hc) n n hloop
      exact absurd hloop' (not_transGen_self_of_acc (hcomplete.acc n))
  | ok result =>
      obtain ⟨report, g'⟩ := result
      have hcomplete' : g'.Complete e.vocabulary rule.basePath :=
        complete_of_run_eq_ok h.readsRaw (h.unannotated hgr) hrun
      have hsame := (covered_of_run_eq_ok hrun).same
      have hmarked' : ∀ n, e.vocabulary.markerFact n ∈ g'.toList ↔
          e.vocabulary.markerFact n ∈ g.toList :=
        fun n => (hsame.mem_marker_iff hp).trans (hmarked n)
      have hchild' : ∀ n q, g'.IsChild e.vocabulary n q ↔ g.IsChild e.vocabulary n q :=
        fun n q => (hsame.isChild_iff hp).trans (hchild n q)
      have hnames : ∀ n, g'.objects n e.vocabulary.objectName =
          g.objects n e.vocabulary.objectName := by
        intro n
        by_cases hn : e.vocabulary.markerFact n ∈ g.toList
        · -- an object has one name after the run, and it was given no other than its own
          have hobjects := hcomplete'.objects_objectName ((hmarked' n).2 hn)
          have hown : .literal (.string (g'.nameOf e.vocabulary n)) =
              Term.literal (.string (g.nameOf e.vocabulary n)) := by
            refine hname n _ ?_
            show _ ∈ (e.annotator.annotateAll [rule] gr).2.objects n e.vocabulary.objectName
            rw [← hsame _ (hv.ne_objectPath (by simp)), hobjects]
            exact List.mem_singleton_self _
          rw [hobjects, hcomplete.objects_objectName hn, hown]
        · rw [hcomplete.unnamed n hn, hcomplete'.unnamed n fun hn' => hn ((hmarked' n).1 hn')]
      refine ⟨report, g', rfl,
        { marked := hmarked'
          parents := fun n t => ⟨fun ht => ?_, fun ht => ?_⟩
          names := hnames
          paths := hcomplete.objects_objectPath_eq hcomplete' hforest hmarked' hchild' fun n =>
            Graph.valueText_congr (hnames n) }⟩
      · obtain ⟨-, q, rfl, -⟩ := hcomplete'.parents n t ht
        exact (hchild' n q).1 ht
      · obtain ⟨-, q, rfl, -⟩ := hcomplete.parents n t ht
        exact (hchild' n q).2 ht

/-- The reversion of one rule whose check succeeds. -/
theorem revert_singleton (hcheck : Rule.checkAll [rule] = .ok ()) {reverted : ReversionReport}
    {g' : Graph} (hrevert : g.revert e.vocabulary rule = .ok (reverted, g')) :
    e.revert [rule] g = (.ok [reverted], g') := by
  rw [revert, hcheck]
  simp [revertAll, hrevert, Except.map]

/-- **Reversion undoes annotation.** Annotate raw facts by a rule that takes all names from one
predicate and all children from another one. If the run gives a forest in which siblings differ in
their names, then its annotation facts alone can be reverted, and the raw facts that this asserts
lead to the same marker, name, parent and path facts in another run. -/
theorem run_of_reverted (hrule : rule.Mirrors e.vocabulary p c) (hg : g.Unannotated e.vocabulary)
    (hrun : e.run [rule] g = .ok (report, g₁)) (hforest : g₁.IsForest e.vocabulary) :
    ∃ reverted g₂ report' g₃,
      e.revert [rule] (g₁.annotationPart e.vocabulary) = (.ok reverted, g₂) ∧
      e.run [rule] (g₂.rawPart e.vocabulary) = .ok (report', g₃) ∧
      ∀ f : Fact, (e.vocabulary.isMarker f = true ∨ f.predicate ∈
          [e.vocabulary.objectName, e.vocabulary.parentRef, e.vocabulary.objectPath]) →
        (f ∈ g₃.toList ↔ f ∈ g₁.toList) := by
  obtain ⟨hcheck, -, -⟩ := exists_of_run_eq_ok hrun
  -- the annotation facts hold the whole forest, so it can be reverted from them
  have hpart := g₁.sameHierarchy_annotationPart e.vocabulary
  have hcomplete := hpart.complete (complete_of_run_eq_ok hrule.readsRaw hg hrun)
  have hforest := hpart.isForest hforest
  obtain ⟨reverted, g₂, hrevert, hmem⟩ :=
    hcomplete.exists_revert hrule.nameSource hrule.linkPredicate hforest
  -- the annotations that the reversion starts from are no raw facts, and all that it adds is raw
  have hraw : ∀ f, f ∈ (g₂.rawPart e.vocabulary).toList ↔
      (g₁.annotationPart e.vocabulary).Asserts e.vocabulary rule p c f := by
    intro f
    rw [Graph.toList_rawPart, Graph.rawFacts, List.mem_filter, hmem, Graph.toList_annotationPart,
      List.mem_filter]
    constructor
    · rintro ⟨⟨-, hannotation⟩ | hasserted, hf⟩
      · rw [hf] at hannotation
        cases hannotation
      · exact hasserted
    · exact fun hasserted => ⟨.inr hasserted, hrule.isRaw_of_asserts hasserted⟩
  obtain ⟨report', g₃, hrun', hsame⟩ :=
    exists_run_of_asserted hrule hraw hcomplete hforest hcheck
  refine ⟨[reverted], g₂, report', g₃, revert_singleton hcheck hrevert, hrun', fun f hf => ?_⟩
  rw [hsame.mem_iff hf, hpart.mem_iff hf]

/-- In the taxonomy, the second of the concepts with one label keeps the name that it was given to
tell it apart. -/
theorem run_of_reverted_taxonomy : ∃ report g₁ reverted g₂ report' g₃,
    Taxonomy.rule.Mirrors Taxonomy.engine.vocabulary Taxonomy.label Taxonomy.narrower ∧
    Taxonomy.graph.Unannotated Taxonomy.engine.vocabulary ∧
    Taxonomy.engine.run [Taxonomy.rule] Taxonomy.graph = .ok (report, g₁) ∧
    g₁.IsForest Taxonomy.engine.vocabulary ∧
    g₁.nameOf Taxonomy.engine.vocabulary Taxonomy.wildcats = "Cats2" ∧
    Taxonomy.engine.revert [Taxonomy.rule] (g₁.annotationPart Taxonomy.engine.vocabulary) =
      (.ok reverted, g₂) ∧
    Taxonomy.engine.run [Taxonomy.rule] (g₂.rawPart Taxonomy.engine.vocabulary) =
      .ok (report', g₃) ∧
    ∀ f : Fact, (Taxonomy.engine.vocabulary.isMarker f = true ∨ f.predicate ∈
        [Taxonomy.engine.vocabulary.objectName, Taxonomy.engine.vocabulary.parentRef,
          Taxonomy.engine.vocabulary.objectPath]) →
      (f ∈ g₃.toList ↔ f ∈ g₁.toList) := by
  have hg : Taxonomy.graph.Unannotated Taxonomy.engine.vocabulary := by decide +kernel
  have hend : ((Taxonomy.engine.run [Taxonomy.rule] Taxonomy.graph).toOption.any fun result =>
      result.2.IsForest Taxonomy.engine.vocabulary ∧
        result.2.nameOf Taxonomy.engine.vocabulary Taxonomy.wildcats = "Cats2") = true := by
    decide +kernel
  obtain ⟨⟨report, g₁⟩, hrun, hend⟩ := exists_eq_ok_of_any hend
  obtain ⟨hforest, hname⟩ := of_decide_eq_true hend
  obtain ⟨reverted, g₂, report', g₃, hrevert, hrun', hsame⟩ :=
    run_of_reverted Taxonomy.mirrors hg hrun hforest
  exact ⟨report, g₁, reverted, g₂, report', g₃, Taxonomy.mirrors, hg, hrun, hforest, hname,
    hrevert, hrun', hsame⟩

end Engine

end FactHierarchy
