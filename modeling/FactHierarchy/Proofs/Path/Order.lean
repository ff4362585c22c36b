import FactHierarchy.Proofs.Path.Outcome

/-!
# The order of facts and candidates

Graphs with the same facts (`Graph.SameFacts`) may hold them in different orders. A question for the
first object of a subject is answered alike by both only if there is one object at most: the
predicate is *functional* (`Graph.Functional`).

Where parents and names are functional, a path pass depends neither on the order of the facts nor on
the order and number of mentions of its candidates (`Graph.writePaths_ignores_order`). The descents
of two such passes may visit the nodes in different orders. But they enter the same nodes, and as
only one way leads up from a node, they find the same path for it.
-/

set_option autoImplicit false

namespace FactHierarchy

/-! ## A tidy plant

Each part is below one line or part. The valve has had its path before. -/

namespace Plant

def tidyFacts : List Fact :=
  let v := engine.vocabulary
  [v.markerFact line1, v.nameFact line1 "line1", v.markerFact line2, v.nameFact line2 "line2",
    v.nameFact sensor "sensor", v.parentFact sensor line1, v.nameFact gasket "gasket",
    v.parentFact gasket sensor, v.nameFact valve "valve", v.parentFact valve line2,
    v.pathFact valve "/plant/valve"]

end Plant

namespace Graph

variable {g g' k k' : Graph} {v : Vocabulary} {rule base : String}
  {candidates candidates' : List Node} {visits visits' : List Visit} {n p q : Node} {t : Term}

/-! ## Graphs with the same facts -/

/-- **The graphs have the same facts**, in any order. -/
def SameFacts (g g' : Graph) : Prop := ∀ f, f ∈ g.toList ↔ f ∈ g'.toList

/-- Only the members of a list count for the graph of its facts. -/
theorem sameFacts_ofList {facts facts' : List Fact} (h : ∀ f, f ∈ facts ↔ f ∈ facts') :
    (ofList facts).SameFacts (ofList facts') := by
  intro f
  rw [ofList, ofList, mem_toList_extend, mem_toList_extend, h]

/-- **No subject has two facts under the predicate.** -/
def Functional (g : Graph) (q : Node) : Prop :=
  ∀ f ∈ g.toList, ∀ f' ∈ g.toList,
    f.predicate = q → f'.predicate = q → f.subject = f'.subject → f = f'

instance (g : Graph) : DecidablePred g.Functional := fun q =>
  inferInstanceAs (Decidable (∀ f ∈ g.toList, ∀ f' ∈ g.toList,
    f.predicate = q → f'.predicate = q → f.subject = f'.subject → f = f'))

theorem Functional.objects_eq_singleton (hq : g.Functional q) (ht : ⟨n, q, t⟩ ∈ g.toList) :
    g.objects n q = [t] := by
  refine Graph.objects_eq_singleton fun t' => ⟨fun ht' => ?_, ?_⟩
  · exact congrArg Fact.object (hq _ ht' _ ht rfl rfl rfl)
  · rintro rfl
    exact ht

/-- Where parents are functional, no node has two parents. -/
theorem Functional.parent_unique (hv : g.Functional v.parentRef) (hp : g.IsChild v n p)
    (hq : g.IsChild v n q) : p = q :=
  Term.node.inj (congrArg Fact.object (hv _ hp _ hq rfl rfl rfl))

namespace SameFacts

variable (h : g.SameFacts g')
include h

theorem functional (hq : g.Functional q) : g'.Functional q :=
  fun f hf f' hf' => hq f ((h f).2 hf) f' ((h f').2 hf')

/-- **What there is at most one of has no order.** -/
theorem objects_eq (hq : g.Functional q) (n : Node) : g.objects n q = g'.objects n q := by
  have hmem : ∀ t, t ∈ g.objects n q ↔ t ∈ g'.objects n q := by
    intro t
    rw [mem_objects, mem_objects, h]
  cases hobjects : g'.objects n q with
  | nil =>
      rw [List.eq_nil_iff_forall_not_mem]
      intro t ht
      rw [hmem, hobjects] at ht
      cases ht
  | cons t rest =>
      have ht' : t ∈ g'.objects n q := by
        rw [hobjects]
        exact List.mem_cons_self ..
      have ht : t ∈ g.objects n q := (hmem t).2 ht'
      rw [← hobjects, hq.objects_eq_singleton (mem_objects.1 ht),
        (h.functional hq).objects_eq_singleton (mem_objects.1 ht')]

theorem any_about_eq (n q : Node) : g.any (.about n q) = g'.any (.about n q) := by
  rw [Bool.eq_iff_iff, any_about_iff, any_about_iff, ne_eq, ne_eq,
    List.eq_nil_iff_forall_not_mem, List.eq_nil_iff_forall_not_mem]
  simp only [mem_objects, h _]

theorem openChild_eq : g.OpenChild v = g'.OpenChild v := by
  funext c p
  rw [OpenChild, OpenChild, IsChild, IsChild, h, hasPath, hasPath, h.any_about_eq]

theorem firstParent_eq (hparents : g.Functional v.parentRef) :
    (g.hierarchy v).FirstParent = (g'.hierarchy v).FirstParent := by
  funext p n
  have hparent : (g.hierarchy v).parent? n = (g'.hierarchy v).parent? n :=
    objectNode?_congr (h.objects_eq hparents n)
  rw [Hierarchy.FirstParent, Hierarchy.FirstParent, hparent]

/-! ## Path passes in graphs with the same facts -/

variable (hcandidates : ∀ n, n ∈ candidates ↔ n ∈ candidates')
include hcandidates

theorem awaitsPath_iff : g.AwaitsPath v candidates n ↔ g'.AwaitsPath v candidates' n := by
  unfold AwaitsPath
  refine exists_congr fun r => ?_
  rw [hcandidates, h, hasParent, hasParent, hasPath, hasPath, h.any_about_eq, h.any_about_eq,
    h.openChild_eq]

/-- **The passes fail for the same loops.** -/
theorem exists_writePaths_eq_error_iff (hparents : g.Functional v.parentRef) :
    (∃ cause, g.writePaths v rule base candidates = .error cause) ↔
      ∃ cause, g'.writePaths v rule base candidates' = .error cause := by
  have hloop : g.LoopAwaits v candidates ↔ g'.LoopAwaits v candidates' := by
    refine exists_congr fun n => ?_
    rw [h.awaitsPath_iff hcandidates, h.openChild_eq]
  have hclimb : ∀ n, g.ClimbsForever v n ↔ g'.ClimbsForever v n := by
    intro n
    rw [ClimbsForever, ClimbsForever, h.firstParent_eq hparents]
  rw [Graph.exists_writePaths_eq_error_iff, Graph.exists_writePaths_eq_error_iff, hloop]
  refine or_congr_right (exists_congr fun n => ?_)
  rw [hcandidates, hasPath, hasPath, h.any_about_eq, h.awaitsPath_iff hcandidates, hclimb]

variable (hparents : g.Functional v.parentRef) (hnames : g.Functional v.objectName)
  (hpass : PathPass v base candidates visits g k)
  (hpass' : PathPass v base candidates' visits' g' k')
include hparents hnames hpass hpass'

/-- **The passes find the same path for every node that awaits one.** -/
theorem valueText_eq (hn : g.AwaitsPath v candidates n) :
    k.valueText n v.objectPath = k'.valueText n v.objectPath := by
  have hname : ∀ n, g.nameOf v n = g'.nameOf v n :=
    fun n => valueText_congr (h.objects_eq hnames n)
  have hparent : ∀ n, g.hasParent v n = g'.hasParent v n := fun n => h.any_about_eq n v.parentRef
  have hentered : ∀ n, g.AwaitsPath v candidates n → Entered visits n ∧ Entered visits' n := by
    intro n hn
    exact ⟨hpass.entered_iff.2 hn, hpass'.entered_iff.2 ((h.awaitsPath_iff hcandidates).1 hn)⟩
  -- by induction on the way down from a root
  refine (reached_iff_awaitsPath.2 hn).invariant (fun r hr hopen => ?_) fun c m hm ih hc => ?_
  · have hroot := reached_iff_awaitsPath.1 (Hierarchy.reached_root hr hopen)
    obtain ⟨⟨above, hvisit⟩, ⟨above', hvisit'⟩⟩ := hentered r hroot
    obtain ⟨-, -, hnoparent⟩ := mem_roots.1 hr
    rw [(hpass.valueText_eq hvisit).1 hnoparent,
      (hpass'.valueText_eq hvisit').1 (hparent r ▸ hnoparent), hname]
  · have hchild : g.IsChild v c m := mem_nodesBelow.1 hc.1
    obtain ⟨⟨above, hvisit⟩, ⟨above', hvisit'⟩⟩ :=
      hentered c (reached_iff_awaitsPath.1 (hm.below hc))
    obtain ⟨p, -, hp, hpath⟩ := (hpass.valueText_eq hvisit).2 hchild.hasParent
    obtain ⟨p', -, hp', hpath'⟩ :=
      (hpass'.valueText_eq hvisit').2 (hparent c ▸ hchild.hasParent)
    -- both passes enter the child from its only parent
    obtain rfl : p = m := hparents.parent_unique hp hchild
    obtain rfl : p' = p := hparents.parent_unique ((h _).2 hp') hchild
    rw [hpath, hpath', ih, hname]

/-- **The passes write the same facts.** -/
theorem pass : k.SameFacts k' ∧ (enteredNodes visits).length = (enteredNodes visits').length := by
  have hentered : ∀ n, n ∈ enteredNodes visits ↔ n ∈ enteredNodes visits' := by
    intro n
    rw [mem_enteredNodes, mem_enteredNodes, hpass.entered_iff, hpass'.entered_iff,
      h.awaitsPath_iff hcandidates]
  constructor
  · intro f
    rw [hpass.toList_eq_map, hpass'.toList_eq_map, List.mem_append, List.mem_append, h,
      List.mem_map, List.mem_map]
    refine or_congr_right (exists_congr fun n => ?_)
    rw [← hentered]
    refine and_congr_right fun hn => ?_
    rw [mem_enteredNodes, hpass.entered_iff] at hn
    rw [h.valueText_eq hcandidates hparents hnames hpass hpass' hn]
  · exact ((List.perm_ext_iff_of_nodup hpass.explored.once hpass'.explored.once).2
      hentered).length_eq

end SameFacts

/-- **A path pass ignores the order of facts and candidates**, where each node has one parent fact
and one name fact at most. In graphs with the same facts, passes for the same candidates fail alike,
and if they succeed, then they write the same facts, and the same number of them. -/
theorem writePaths_ignores_order (hfacts : g.SameFacts g') (hparents : g.Functional v.parentRef)
    (hnames : g.Functional v.objectName) (hcandidates : ∀ n, n ∈ candidates ↔ n ∈ candidates') :
    ((∃ cause, g.writePaths v rule base candidates = .error cause) ↔
      ∃ cause, g'.writePaths v rule base candidates' = .error cause) ∧
    ∀ report k report' k', g.writePaths v rule base candidates = .ok (report, k) →
      g'.writePaths v rule base candidates' = .ok (report', k') →
        k.SameFacts k' ∧ report.written = report'.written := by
  refine ⟨hfacts.exists_writePaths_eq_error_iff hcandidates hparents, ?_⟩
  intro report k report' k' hwrite hwrite'
  obtain ⟨visits, hpass, rfl⟩ := pathPass_of_writePaths hwrite
  obtain ⟨visits', hpass', rfl⟩ := pathPass_of_writePaths hwrite'
  exact hfacts.pass hcandidates hparents hnames hpass hpass'

/-- From the facts of the tidy plant and from the same facts in reverse, passes go down from the two
lines in different orders, and write the same four paths. -/
theorem writePaths_ignores_order_in_tidy_plant : ∃ report k report' k',
    (ofList Plant.tidyFacts).SameFacts (ofList Plant.tidyFacts.reverse) ∧
    (ofList Plant.tidyFacts).Functional Plant.engine.vocabulary.parentRef ∧
    (ofList Plant.tidyFacts).Functional Plant.engine.vocabulary.objectName ∧
    (∀ n, n ∈ Plant.candidates ↔ n ∈ [Plant.sensor, Plant.line2, Plant.line1]) ∧
    (ofList Plant.tidyFacts).writePaths Plant.engine.vocabulary "lines" "/plant"
      Plant.candidates = .ok (report, k) ∧
    (ofList Plant.tidyFacts.reverse).writePaths Plant.engine.vocabulary "lines" "/plant"
      [Plant.sensor, Plant.line2, Plant.line1] = .ok (report', k') ∧
    report.roots = [Plant.line1, Plant.line2] ∧ report'.roots = [Plant.line2, Plant.line1] ∧
    k.SameFacts k' ∧ report.written = 4 ∧ report'.written = 4 := by
  have hfacts : (ofList Plant.tidyFacts).SameFacts (ofList Plant.tidyFacts.reverse) :=
    sameFacts_ofList fun f => List.mem_reverse.symm
  have hparents : (ofList Plant.tidyFacts).Functional Plant.engine.vocabulary.parentRef := by
    decide +kernel
  have hnames : (ofList Plant.tidyFacts).Functional Plant.engine.vocabulary.objectName := by
    decide +kernel
  have hcandidates : ∀ n, n ∈ Plant.candidates ↔ n ∈ [Plant.sensor, Plant.line2, Plant.line1] := by
    intro n
    simp only [Plant.candidates, List.mem_cons, List.not_mem_nil, or_false]
    tauto
  have hend : (((ofList Plant.tidyFacts).writePaths Plant.engine.vocabulary "lines" "/plant"
      Plant.candidates).toOption.any fun result =>
        result.1.roots = [Plant.line1, Plant.line2] ∧ result.1.written = 4) = true := by
    decide +kernel
  have hend' : (((ofList Plant.tidyFacts.reverse).writePaths Plant.engine.vocabulary "lines"
      "/plant" [Plant.sensor, Plant.line2, Plant.line1]).toOption.any fun result =>
        result.1.roots = [Plant.line2, Plant.line1]) = true := by
    decide +kernel
  obtain ⟨⟨report, k⟩, hpass, hend⟩ := exists_eq_ok_of_any hend
  obtain ⟨⟨report', k'⟩, hpass', hend'⟩ := exists_eq_ok_of_any hend'
  obtain ⟨hroots, hwritten⟩ := of_decide_eq_true hend
  obtain ⟨-, hsame⟩ := writePaths_ignores_order hfacts hparents hnames hcandidates
  obtain ⟨hfacts', hwritten'⟩ := hsame report k report' k' hpass hpass'
  exact ⟨report, k, report', k', hfacts, hparents, hnames, hcandidates, hpass, hpass', hroots,
    of_decide_eq_true hend', hfacts', hwritten, hwritten' ▸ hwritten⟩

end Graph

end FactHierarchy
