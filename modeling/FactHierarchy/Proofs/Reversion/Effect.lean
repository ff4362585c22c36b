import FactHierarchy.Proofs.Hierarchy.Links
import FactHierarchy.Proofs.Reversion.Roots

/-!
# The exact effect of a reversion

A reversion is about its roots and, if its rule has a link predicate, about all nodes from which a
way leads up to one of them (`Graph.revertedNodes`). It fails exactly when such a rule comes to a
loop among these nodes (`Graph.RevertsLoop`). Otherwise the facts that it derives are known
(`Graph.Derives`), and it adds those that are not there yet behind all others
(`Graph.revert_exact_effect`).

Nothing is asked of the graph. The nodes need not be objects, they may lack names and have several
parents, and there may be loops elsewhere.
-/

set_option autoImplicit false

namespace FactHierarchy.Graph

variable {g : Graph} {v : Vocabulary} {rule : Rule} {facts : List Fact} {objects : Nat}
  {c n p : Node}

/-! ## Adding facts and counting them -/

theorem toList_prefix_extend (g : Graph) (facts : List Fact) :
    g.toList <+: (g.extend facts).toList := by
  induction facts generalizing g with
  | nil => exact List.prefix_rfl
  | cons f facts ih =>
      have hput : g.toList <+: (g.put f).toList := by
        rw [toList_put]
        split
        · exact List.prefix_rfl
        · exact List.prefix_append ..
      rw [extend_cons]
      exact hput.trans (ih _)

/-- **The facts that are not there yet are added behind all others**, each once. -/
theorem exists_toList_extend (g : Graph) (facts : List Fact) :
    ∃ new, (g.extend facts).toList = g.toList ++ new ∧ new.Nodup ∧
      ∀ f, f ∈ new ↔ f ∉ g.toList ∧ f ∈ facts := by
  obtain ⟨new, hnew⟩ := toList_prefix_extend g facts
  obtain ⟨-, hnodup, hdisjoint⟩ := List.nodup_append'.1 (hnew ▸ (g.extend facts).nodup_toList)
  refine ⟨new, hnew.symm, hnodup, fun f => ?_⟩
  have hmem : f ∈ g.toList ∨ f ∈ new ↔ f ∈ g.toList ∨ f ∈ facts := by
    rw [← List.mem_append, hnew, mem_toList_extend]
  have hapart : f ∈ new → f ∉ g.toList := fun hf hg => hdisjoint hg hf
  tauto

/-- The graph grows by as many facts as are counted. -/
theorem length_toList_extend (g : Graph) (facts : List Fact) :
    (g.extend facts).toList.length = g.toList.length + (g.insertAll facts).1 := by
  have hfold : ∀ step : Nat × Graph → Fact → Nat × Graph,
      (∀ s f, (step s f).2.toList.length + s.1 = s.2.toList.length + (step s f).1) →
      ∀ s, (facts.foldl step s).2.toList.length + s.1 =
        s.2.toList.length + (facts.foldl step s).1 := by
    intro step hstep
    induction facts with
    | nil => exact fun s => rfl
    | cons f facts ih =>
        intro s
        have hfirst := hstep s f
        have hrest := ih (step s f)
        rw [List.foldl_cons]
        omega
  rw [← insertAll_snd]
  refine hfold _ (fun s f => ?_) (0, g)
  by_cases hf : f ∈ s.2.toList
  · have hcontains : s.2.contains f = true := (s.2.contains_iff f).2 hf
    simp [insert, hcontains, toList_put_of_mem hf]
  · have hcontains : s.2.contains f = false := by
      rw [Bool.eq_false_iff, ne_eq, contains_iff]
      exact hf
    simp [insert, hcontains, toList_put_of_not_mem hf]
    omega

/-! ## What a reversion is about -/

/-- **The nodes that a reversion is about**: its roots and, if the rule has a link predicate, the
nodes from which a way of parent facts leads up to a root. -/
def revertedNodes (g : Graph) (v : Vocabulary) (rule : Rule) : Set Node :=
  {n | ∃ r ∈ g.rootsBelow v rule.basePath,
    n = r ∨ rule.linkPredicate ≠ none ∧ Relation.ReflTransGen (g.IsChild v) n r}

/-- **The reversion comes to a loop**: the rule has a link predicate, and a node that the reversion
is about stands above itself. -/
def RevertsLoop (g : Graph) (v : Vocabulary) (rule : Rule) : Prop :=
  rule.linkPredicate ≠ none ∧ ∃ n ∈ g.revertedNodes v rule, Relation.TransGen (g.IsChild v) n n

/-- **The facts that a reversion derives**: each node is selected, each node with a name is named by
its first name if the rule takes names from a predicate, and each node is linked to all its
children if the rule has a link predicate. -/
inductive Derives (g : Graph) (v : Vocabulary) (rule : Rule) : Fact → Prop
  | selected {n : Node} (hn : n ∈ g.revertedNodes v rule) :
    Derives g v rule ⟨n, rule.selector.predicate, rule.selector.value⟩
  | named {n predicate : Node} {name : Term} (hn : n ∈ g.revertedNodes v rule)
    (hsource : rule.nameSource = .fromValue predicate)
    (hname : g.object? n v.objectName = some name) : Derives g v rule ⟨n, predicate, name⟩
  | linked {parent predicate child : Node} (hparent : parent ∈ g.revertedNodes v rule)
    (hlink : rule.linkPredicate = some predicate) (hchild : g.IsChild v child parent) :
    Derives g v rule ⟨parent, predicate, .node child⟩

theorem revertedNodes_of_no_link (hlink : rule.linkPredicate = none) :
    g.revertedNodes v rule = {n | n ∈ g.rootsBelow v rule.basePath} := by
  ext n
  simp [revertedNodes, hlink]

/-- With a link predicate these are the nodes that the descent from the roots reaches. -/
theorem revertedNodes_of_link (hlink : rule.linkPredicate = some p) :
    g.revertedNodes v rule =
      {n | (g.hierarchy v).Reached (fun _ => false) (g.rootsBelow v rule.basePath) n} := by
  have hbelow : (fun c p => c ∈ (g.hierarchy v).below p) = g.IsChild v :=
    funext fun c => funext fun p => propext mem_nodesBelow
  ext n
  show (∃ r ∈ _, n = r ∨ _) ↔ (g.hierarchy v).Reached _ _ n
  rw [Hierarchy.reached_iff_of_open, hbelow]
  refine exists_congr fun r => and_congr_right fun _ => ?_
  constructor
  · rintro (rfl | ⟨-, hway⟩)
    · exact .refl
    · exact hway
  · intro hway
    exact .inr ⟨by simp [hlink], hway⟩

/-! ## What it plans -/

/-- The facts about a node select it, and name it by its first name. -/
theorem mem_objectFacts {f : Fact} : f ∈ g.objectFacts v rule n ↔
    f = ⟨n, rule.selector.predicate, rule.selector.value⟩ ∨
      ∃ predicate name, rule.nameSource = .fromValue predicate ∧
        g.object? n v.objectName = some name ∧ f = ⟨n, predicate, name⟩ := by
  rw [objectFacts, List.mem_cons]
  refine or_congr_right ?_
  cases rule.nameSource with
  | fromValue predicate => simp [eq_comm]
  | fixed name => simp
  | localName => simp

/-- A derived fact is about a node, or it links a node to a child. -/
theorem derives_iff {f : Fact} : g.Derives v rule f ↔
    (∃ n ∈ g.revertedNodes v rule, f ∈ g.objectFacts v rule n) ∨
      ∃ parent ∈ g.revertedNodes v rule, ∃ predicate child, rule.linkPredicate = some predicate ∧
        g.IsChild v child parent ∧ f = ⟨parent, predicate, .node child⟩ := by
  constructor
  · rintro (hn | ⟨hn, hsource, hname⟩ | ⟨hparent, hlink, hchild⟩)
    · exact .inl ⟨_, hn, mem_objectFacts.2 (.inl rfl)⟩
    · exact .inl ⟨_, hn, mem_objectFacts.2 (.inr ⟨_, _, hsource, hname, rfl⟩)⟩
    · exact .inr ⟨_, hparent, _, _, hlink, hchild, rfl⟩
  · rintro (⟨n, hn, hf⟩ | ⟨parent, hparent, predicate, child, hlink, hchild, rfl⟩)
    · rcases mem_objectFacts.1 hf with rfl | ⟨predicate, name, hsource, hname, rfl⟩
      · exact .selected hn
      · exact .named hn hsource hname
    · exact .linked hparent hlink hchild

/-- **There is no plan exactly when the reversion comes to a loop.** -/
theorem exists_reversionFacts_eq_error_iff :
    (∃ chain, g.reversionFacts v rule (g.rootsBelow v rule.basePath) = .error chain) ↔
      g.RevertsLoop v rule := by
  have hbelow : (g.hierarchy v).OpenBelow (fun _ => false) = g.IsChild v := by
    funext c p
    show (c ∈ g.nodesBelow v p ∧ false = false) = g.IsChild v c p
    rw [eq_self, and_true, mem_nodesBelow]
  cases hlink : rule.linkPredicate with
  | none => simp [reversionFacts, RevertsLoop, hlink]
  | some predicate =>
      have hdescend : (∃ chain, g.reversionFacts v rule (g.rootsBelow v rule.basePath) =
          .error chain) ↔ ∃ chain, (g.hierarchy v).descend (fun _ => false)
            (g.rootsBelow v rule.basePath) = .error chain := by
        rw [reversionFacts, hlink]
        dsimp only
        cases (g.hierarchy v).descend (fun _ => false) (g.rootsBelow v rule.basePath) <;> simp
      rw [hdescend, Hierarchy.descend_eq_error_iff, hbelow, RevertsLoop,
        revertedNodes_of_link hlink]
      simp [hlink]

/-- A visit leads to a link from the node above, and to the facts about a node that is entered. -/
theorem mem_visitFacts {visit : Visit} {f : Fact} : f ∈ g.visitFacts v rule p visit ↔
    (∃ parent, visit.above.head? = some parent ∧ f = ⟨parent, p, .node visit.node⟩) ∨
      visit.entered = true ∧ f ∈ g.objectFacts v rule visit.node := by
  rw [visitFacts, List.mem_append]
  refine or_congr ?_ ?_
  · simp [eq_comm]
  · cases visit.entered <;> simp

/-- The visits of a descent from the roots lead to the facts that the reversion derives. -/
theorem mem_flatMap_visitFacts {visits : List Visit} {f : Fact}
    (hlink : rule.linkPredicate = some p)
    (hvisits : (g.hierarchy v).descend (fun _ => false) (g.rootsBelow v rule.basePath) =
      .ok visits) :
    f ∈ visits.flatMap (g.visitFacts v rule p) ↔ g.Derives v rule f := by
  have hexplored := Hierarchy.explored_of_descend_eq_ok hvisits
  rw [derives_iff, revertedNodes_of_link hlink, List.mem_flatMap]
  simp only [mem_visitFacts, Set.mem_ofPred_eq, hlink]
  constructor
  · rintro ⟨visit, hvisit, ⟨parent, habove, rfl⟩ | ⟨hentered, hf⟩⟩
    · obtain ⟨hparent, hchild⟩ :=
        (Hierarchy.exists_visit_iff hvisits).1 ⟨visit, hvisit, rfl, habove⟩
      exact .inr ⟨parent, hparent, p, visit.node, rfl, mem_nodesBelow.1 hchild, rfl⟩
    · obtain ⟨n, above, entered⟩ := visit
      obtain rfl : entered = true := hentered
      exact .inl ⟨n, hexplored.entered_iff.1 ⟨above, hvisit⟩, hf⟩
  · rintro (⟨n, hn, hf⟩ | ⟨parent, hparent, predicate, child, hp, hchild, rfl⟩)
    · obtain ⟨above, hvisit⟩ := hexplored.entered_iff.2 hn
      exact ⟨_, hvisit, .inr ⟨rfl, hf⟩⟩
    · obtain rfl := Option.some.inj hp
      obtain ⟨visit, hvisit, rfl, habove⟩ :=
        (Hierarchy.exists_visit_iff hvisits).2 ⟨hparent, mem_nodesBelow.2 hchild⟩
      exact ⟨visit, hvisit, .inl ⟨parent, habove, rfl⟩⟩

/-- **A plan holds the facts that the reversion derives**, and it counts the nodes. -/
theorem derives_of_reversionFacts
    (h : g.reversionFacts v rule (g.rootsBelow v rule.basePath) = .ok (facts, objects)) :
    (∀ f, f ∈ facts ↔ g.Derives v rule f) ∧ (g.revertedNodes v rule).encard = objects := by
  unfold reversionFacts at h
  split at h
  · next hlink =>
    obtain ⟨rfl, rfl⟩ := Prod.mk.inj (Except.ok.inj h)
    rw [revertedNodes_of_no_link hlink]
    refine ⟨fun f => ?_, ?_⟩
    · rw [derives_iff, revertedNodes_of_no_link hlink, List.mem_flatMap]
      simp [hlink]
    · have hnodup : (g.rootsBelow v rule.basePath).Nodup := (nodup_roots ..).filter _
      rw [← List.coe_toFinset, Set.encard_coe_eq_coe_finsetCard,
        List.toFinset_card_of_nodup hnodup]
  · next predicate hlink =>
    split at h
    · cases h
    · next visits hvisits =>
      obtain ⟨rfl, rfl⟩ := Prod.mk.inj (Except.ok.inj h)
      refine ⟨fun f => mem_flatMap_visitFacts hlink hvisits, ?_⟩
      rw [revertedNodes_of_link hlink]
      exact (Hierarchy.explored_of_descend_eq_ok hvisits).encard_reached

/-- **The exact effect of a reversion.** It fails if and only if it comes to a loop. Otherwise the
facts that it derives and that are not there yet stand behind all others, each once, and the report
gives the number of the nodes that the reversion is about and the number of these facts. -/
theorem revert_exact_effect (g : Graph) (v : Vocabulary) (rule : Rule) :
    ((∃ chain, g.revert v rule = .error (.cyclicHierarchy rule.id chain)) ↔
      g.RevertsLoop v rule) ∧
    (g.RevertsLoop v rule ∨ ∃ report g' new, g.revert v rule = .ok (report, g') ∧
      g'.toList = g.toList ++ new ∧ new.Nodup ∧
      (∀ f, f ∈ new ↔ f ∉ g.toList ∧ g.Derives v rule f) ∧
      report.rule = rule.id ∧ report.roots = g.rootsBelow v rule.basePath ∧
      (g.revertedNodes v rule).encard = report.objects ∧ report.added = new.length) := by
  rw [← exists_reversionFacts_eq_error_iff, revert_eq]
  cases hplan : g.reversionFacts v rule (g.rootsBelow v rule.basePath) with
  | error chain => exact ⟨⟨fun _ => ⟨chain, rfl⟩, fun _ => ⟨chain, rfl⟩⟩, .inl ⟨chain, rfl⟩⟩
  | ok plan =>
      obtain ⟨facts, objects⟩ := plan
      obtain ⟨hderives, hobjects⟩ := derives_of_reversionFacts hplan
      obtain ⟨new, htoList, hnodup, hmem⟩ := exists_toList_extend g facts
      have hcount : (g.insertAll facts).1 = new.length := by
        have hlength := length_toList_extend g facts
        rw [htoList, List.length_append] at hlength
        omega
      refine ⟨⟨?_, ?_⟩, .inr ⟨_, _, new, rfl, htoList, hnodup, fun f => ?_, rfl, rfl, hobjects,
        hcount⟩⟩
      · rintro ⟨chain, h⟩
        cases h
      · rintro ⟨chain, h⟩
        cases h
      · rw [hmem, hderives]

-- The sensor is met from both lines, and linked to both.
example : (Plant.annotations.revert Plant.engine.vocabulary Plant.inventoryRules[0]).map
      (fun result => (result.1.objects, result.2.toList.drop Plant.annotations.size)) =
    .ok (3,
      [⟨Plant.line1, .iri rdfTypeIri, Plant.lineKind⟩, ⟨Plant.line1, Plant.has, Plant.sensor⟩,
        ⟨Plant.sensor, .iri rdfTypeIri, Plant.lineKind⟩,
        ⟨Plant.line2, .iri rdfTypeIri, Plant.lineKind⟩,
        ⟨Plant.line2, Plant.has, Plant.sensor⟩]) := by
  decide +kernel

end FactHierarchy.Graph
